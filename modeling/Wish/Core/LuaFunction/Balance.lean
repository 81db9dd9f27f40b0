import Wish.Core.LuaFunction.RoundTrip
import Mathlib.Algebra.Order.BigOperators.Group.List
import Mathlib.Data.Rat.Defs

/-!
# The count of `push_json` and the height of the stack

A caller takes the value at the top only if the count is positive. `Effect` is what a call does to
the height of the stack, and `Pile` says that every call does that, and nothing else.

The count and the height agree (`balanced_iff`) as long as each array with items and each object
counts a value, as an `int`: an array of empty arrays leaves a table and returns 0.
-/

namespace Wish.LuaFunction

open Lua Prog

/-! ## Heights -/

/-- What a call returns, how many values it leaves, and how many slots it takes. -/
structure Effect where
  count : Int
  left : Nat
  room : Nat

namespace Effect

def zero : Effect := ⟨0, 0, 0⟩

def one : Effect := ⟨1, 1, 1⟩

/-- What is left when the value has been put into a table. -/
def rest (e : Effect) : Nat := if 0 < e.count then e.left - 1 else e.left

def counted (es : List Effect) : Nat := es.countP fun e => 0 < e.count

def rests (es : List Effect) : Nat := (es.map rest).sum

/-- The slots that the calls of a loop take. -/
def peak : List Effect → Nat
  | [] => 0
  | e :: es => max e.room (e.rest + peak es)

/-- A new table, and a loop that begins with this count. -/
def table (start : Nat) (es : List Effect) : Effect :=
  ⟨toInt (start + counted es), rests es + 1, peak es + 1⟩

theorem rest_le_left (e : Effect) : e.rest ≤ e.left := by
  rw [rest]
  split
  · exact Nat.sub_le _ _
  · exact Nat.le_refl _

theorem rests_cons (e : Effect) (es : List Effect) : rests (e :: es) = e.rest + rests es := by
  rw [rests, List.map_cons, List.sum_cons, rests]

theorem counted_cons (e : Effect) (es : List Effect) :
    counted (e :: es) = (if 0 < e.count then 1 else 0) + counted es := by
  rw [counted, List.countP_cons, Nat.add_comm, counted]
  simp only [decide_eq_true_eq]

theorem rests_le_peak (es : List Effect) : rests es ≤ peak es := by
  induction es with
  | nil => exact Nat.le_refl _
  | cons e es ih =>
    rw [rests_cons, peak]
    exact (Nat.add_le_add_left ih _).trans (Nat.le_max_right _ _)

theorem rests_eq_zero_iff {es : List Effect} : rests es = 0 ↔ ∀ e ∈ es, e.rest = 0 := by
  rw [rests, List.sum_eq_zero_iff, List.forall_mem_map]

/-- Where nothing is left over, each call has the same slots. -/
theorem peak_eq {es : List Effect} (h : ∀ e ∈ es, e.rest = 0) :
    peak es = (es.map room).foldr max 0 := by
  induction es with
  | nil => rfl
  | cons e es ih =>
    obtain ⟨he, hes⟩ := List.forall_mem_cons.mp h
    rw [peak, he, Nat.zero_add, ih hes, List.map_cons, List.foldr_cons]

/-- A table is taken if the count is positive; nothing else may be left over. -/
theorem rest_table_eq_zero_iff {start : Nat} {es : List Effect} :
    (table start es).rest = 0 ↔ 0 < toInt (start + counted es) ∧ ∀ e ∈ es, e.rest = 0 := by
  rw [← rests_eq_zero_iff]
  by_cases hcount : 0 < toInt (start + counted es)
  · rw [rest, table, if_pos hcount, Nat.add_sub_cancel]
    exact ⟨fun h => ⟨hcount, h⟩, fun h => h.2⟩
  · rw [rest, table, if_neg hcount]
    exact ⟨fun h => absurd h (Nat.succ_ne_zero _), fun h => absurd h.1 hcount⟩

end Effect

variable {D : Type}

namespace Json

def effect : Json D → Effect :=
  fold
    { null := .one
      boolean := fun _ => .one
      string := fun _ => .one
      numberUnsigned := fun _ => .one
      numberInteger := fun _ => .one
      numberFloat := fun _ => .one
      array := fun es => if es = [] then .zero else .table 0 es
      object := fun ms => .table 1 (ms.map Prod.snd)
      binary := fun _ => .zero }

/-- Something is pushed for the value. -/
def present : Json D → Bool
  | .array items => !items.isEmpty
  | .binary _ => false
  | _ => true

/-- An array with items has some for which something is pushed, as many as an `int` counts; an
object counts one more. -/
def Counting : Json D → Prop
  | .array items => items ≠ [] → 0 < toInt (items.countP present)
  | .object members => 0 < toInt (1 + (members.map Prod.snd).countP present)
  | _ => True

def Sound : Json D → Prop := All Counting

/-- One for each level, where something is pushed. -/
def slots : Json D → Nat :=
  fold
    { null := 1
      boolean := fun _ => 1
      string := fun _ => 1
      numberUnsigned := fun _ => 1
      numberInteger := fun _ => 1
      numberFloat := fun _ => 1
      array := fun ns => if ns = [] then 0 else ns.foldr max 0 + 1
      object := fun ms => (ms.map Prod.snd).foldr max 0 + 1
      binary := fun _ => 0 }

variable {items : List (Json D)} {members : List (Text × Json D)} {v : Json D}

/-- **Induction** over the values in a value. -/
theorem children_induction {p : Json D → Prop} (h : ∀ v, (∀ u ∈ v.children, p u) → p v)
    (v : Json D) : p v := by
  induction hn : v.size using Nat.strong_induction_on generalizing v with
  | _ n ih =>
    subst hn
    exact h v fun u hu => ih u.size (size_lt_of_mem hu) u rfl

theorem effect_array (hne : items ≠ []) :
    effect (.array items) = .table 0 (items.map effect) := by
  rw [effect, fold_array]
  exact if_neg (List.map_eq_nil_iff.not.mpr hne)

theorem effect_object :
    effect (.object members) = .table 1 ((members.map Prod.snd).map effect) := by
  simp only [effect, fold_object, List.map_map]
  rfl

theorem slots_array (hne : items ≠ []) :
    slots (.array items) = (items.map slots).foldr max 0 + 1 := by
  rw [slots, fold_array]
  exact if_neg (List.map_eq_nil_iff.not.mpr hne)

theorem slots_object :
    slots (.object members) = ((members.map Prod.snd).map slots).foldr max 0 + 1 := by
  simp only [slots, fold_object, List.map_map]
  rfl

/-- A value for which nothing is pushed. -/
theorem effect_of_not_present (h : ¬ v.present = true) : v.effect = .zero := by
  cases v with
  | array items =>
    cases items with
    | nil => rfl
    | cons => exact absurd rfl h
  | binary => rfl
  | _ => exact absurd rfl h

theorem left_pos (h : v.present = true) : 0 < v.effect.left := by
  cases v with
  | array items =>
    cases items with
    | nil => cases h
    | cons u us =>
      rw [effect_array (List.cons_ne_nil _ _)]
      exact Nat.succ_pos _
  | object members =>
    rw [effect_object]
    exact Nat.succ_pos _
  | binary => cases h
  | _ => exact Nat.one_pos

theorem left_le_room (v : Json D) : v.effect.left ≤ v.effect.room := by
  cases v with
  | array items =>
    cases items with
    | nil => exact Nat.le_refl _
    | cons u us =>
      rw [effect_array (List.cons_ne_nil _ _)]
      exact Nat.succ_le_succ (Effect.rests_le_peak _)
  | object members =>
    rw [effect_object]
    exact Nat.succ_le_succ (Effect.rests_le_peak _)
  | _ => exact Nat.le_refl _

theorem present_of_count_ne_zero (h : v.effect.count ≠ 0) : v.present = true := by
  by_contra hno
  rw [effect_of_not_present hno] at h
  exact h rfl

/-- Where nothing is left over, the values that are counted are those that are pushed. -/
theorem count_pos_iff (h : v.effect.rest = 0) : 0 < v.effect.count ↔ v.present = true := by
  refine ⟨fun hpos => present_of_count_ne_zero hpos.ne', fun hpresent => ?_⟩
  by_contra hcount
  have hleft := left_pos hpresent
  rw [Effect.rest, if_neg hcount] at h
  omega

theorem counted_eq (vs : List (Json D)) (h : ∀ v ∈ vs, v.effect.rest = 0) :
    Effect.counted (vs.map effect) = vs.countP present := by
  rw [Effect.counted, List.countP_map]
  refine List.countP_congr fun v hv => ?_
  rw [Function.comp_apply, decide_eq_true_eq]
  exact count_pos_iff (h v hv)

theorem sound_iff : v.Sound ↔ v.Counting ∧ ∀ u ∈ v.children, u.Sound :=
  ⟨fun h => ⟨h.here, h.child⟩, fun h => .mk h.1 h.2⟩

/-- **A call** leaves nothing over exactly if the value is sound. -/
theorem rest_eq_zero_iff : v.effect.rest = 0 ↔ v.Sound := by
  induction v using children_induction with
  | _ v ih =>
    rw [sound_iff]
    cases v with
    | array items =>
      by_cases hne : items = []
      · subst hne
        exact ⟨fun _ => ⟨fun h => absurd rfl h, nofun⟩, fun _ => rfl⟩
      · have hchildren : (∀ e ∈ items.map effect, e.rest = 0) ↔ ∀ u ∈ items, u.Sound := by
          rw [List.forall_mem_map]
          exact forall₂_congr ih
        rw [effect_array hne, Effect.rest_table_eq_zero_iff, hchildren, Nat.zero_add]
        refine and_congr_left fun hsound => ?_
        rw [counted_eq items fun u hu => (ih u hu).mpr (hsound u hu)]
        exact ⟨fun h _ => h, fun h => h hne⟩
    | object members =>
      have hchildren : (∀ e ∈ (members.map Prod.snd).map effect, e.rest = 0) ↔
          ∀ u ∈ members.map Prod.snd, u.Sound := by
        rw [List.forall_mem_map]
        exact forall₂_congr ih
      rw [effect_object, Effect.rest_table_eq_zero_iff, hchildren]
      refine and_congr_left fun hsound => ?_
      rw [counted_eq (members.map Prod.snd) fun u hu => (ih u hu).mpr (hsound u hu)]
      rfl
    | _ => exact ⟨fun _ => ⟨trivial, nofun⟩, fun _ => rfl⟩

theorem Sound.room_eq (h : v.Sound) : v.effect.room = v.slots := by
  induction v using children_induction with
  | _ v ih =>
    have hroom : ∀ vs : List (Json D), (∀ u ∈ vs, u ∈ v.children) →
        Effect.peak (vs.map effect) = (vs.map slots).foldr max 0 := by
      intro vs hvs
      rw [Effect.peak_eq (List.forall_mem_map.mpr fun u hu =>
        rest_eq_zero_iff.mpr (h.child u (hvs u hu))), List.map_map]
      congr 1
      exact List.map_congr_left fun u hu => ih u (hvs u hu) (h.child u (hvs u hu))
    cases v with
    | array items =>
      by_cases hne : items = []
      · subst hne
        rfl
      · rw [effect_array hne, slots_array hne, ← hroom items fun _ hu => hu]
        rfl
    | object members =>
      rw [effect_object, slots_object, ← hroom (members.map Prod.snd) fun _ hu => hu]
      rfl
    | _ => rfl

end Json

/-! ## The calls -/

open Json

variable [DecidableEq D] {v : Json D} {W A : List (Value D)}

def AllTables (A : List (Value D)) : Prop := ∀ x ∈ A, ∃ es, x = .table es

/-- A call of `push_json` puts the values `W` on the stack. What is not counted, and what is under
the value, is tables. -/
structure Pile (v : Json D) (W : List (Value D)) : Prop where
  length : W.length = v.effect.left
  uncounted : ¬ 0 < v.effect.count → AllTables W
  under : AllTables W.tail
  returns : ∀ (s : State D) (Q : Int → State D → Prop),
    Returns (pushJson v) s Q ↔ v.effect.room ≤ s.free ∧ Q v.effect.count ⟨W ++ s.stack, s.slots⟩

omit [DecidableEq D] in
theorem AllTables.append {B : List (Value D)} (hA : AllTables A) (hB : AllTables B) :
    AllTables (A ++ B) := List.forall_mem_append.mpr ⟨hA, hB⟩

/-- **A round** of a loop, on the tables `A`: the value goes into the topmost of them, or stays. -/
theorem Pile.round (h : Pile v W) (k : Key D) (hA : AllTables A) (hne : A ≠ []) :
    ∃ A', A'.length = A.length + v.effect.rest ∧ AllTables A' ∧
      ∀ (base : List (Value D)) (n : Nat) (g g' : LuaProg D Nat) (Q : Nat → State D → Prop),
        Returns (pushJson v >>= fun c => if c > 0 then rawset k >>= fun _ => g else g')
            ⟨A ++ base, n⟩ Q ↔
          v.effect.room ≤ n - (A ++ base).length ∧
            Returns (if 0 < v.effect.count then g else g') ⟨A' ++ base, n⟩ Q := by
  have hlength := h.length
  by_cases hcount : 0 < v.effect.count
  · have hleft := left_pos (present_of_count_ne_zero hcount.ne')
    obtain ⟨x, W, rfl⟩ := List.exists_cons_of_length_pos (hlength ▸ hleft)
    obtain ⟨y, C, hC⟩ := List.exists_cons_of_ne_nil (List.append_ne_nil_of_right_ne_nil W hne)
    have hall : AllTables (y :: C) := hC ▸ h.under.append hA
    obtain ⟨⟨es, rfl⟩, hrest⟩ := List.forall_mem_cons.mp hall
    refine ⟨.table (setEntry es k x) :: C, ?_, ?_, fun base n g g' Q => ?_⟩
    · have hlengths := congrArg List.length hC
      rw [List.length_append, List.length_cons] at hlengths
      rw [List.length_cons] at hlength
      rw [List.length_cons, Effect.rest, if_pos hcount]
      omega
    · exact List.forall_mem_cons.mpr ⟨⟨_, rfl⟩, hrest⟩
    · have hstack : x :: W ++ (A ++ base) = x :: .table es :: (C ++ base) := by
        rw [List.cons_append, ← List.append_assoc, hC, List.cons_append]
      rw [returns_bind, h.returns, if_pos hcount, if_pos hcount, hstack, returns_bind,
        returns_rawset]
      rfl
  · refine ⟨W ++ A, ?_, (h.uncounted hcount).append hA, fun base n g g' Q => ?_⟩
    · rw [List.length_append, hlength, Effect.rest, if_neg hcount, Nat.add_comm]
    · rw [returns_bind, h.returns, if_neg hcount, if_neg hcount, List.append_assoc]
      rfl

/-- **A loop** puts all its values in, above what was there. -/
theorem exists_pushRows {rows : List (Key D × Json D)} (hrows : ∀ r ∈ rows, ∃ W, Pile r.2 W)
    (hA : AllTables A) (hne : A ≠ []) (count : Nat) :
    ∃ A', A'.length = A.length + Effect.rests (rows.map fun r => r.2.effect) ∧ AllTables A' ∧
      ∀ (base : List (Value D)) (n : Nat) (Q : Nat → State D → Prop),
        Returns (pushRows rows count) ⟨A ++ base, n⟩ Q ↔
          Effect.peak (rows.map fun r => r.2.effect) ≤ n - (A ++ base).length ∧
            Q (count + Effect.counted (rows.map fun r => r.2.effect)) ⟨A' ++ base, n⟩ := by
  induction rows generalizing A count with
  | nil => exact ⟨A, rfl, hA, fun base n Q => by simp [pushRows, Effect.peak, Effect.counted]⟩
  | cons r rows ih =>
    obtain ⟨k, v⟩ := r
    obtain ⟨⟨W, (hW : Pile v W)⟩, hrows⟩ := List.forall_mem_cons.mp hrows
    obtain ⟨B, hlengthB, hB, hround⟩ := hW.round k hA hne
    have hneB : B ≠ [] := by
      rw [← List.length_pos_iff] at hne ⊢
      omega
    obtain ⟨A', hlength, hA', hloop⟩ :=
      ih hrows hB hneB (count + if 0 < v.effect.count then 1 else 0)
    refine ⟨A', ?_, hA', fun base n Q => ?_⟩
    · rw [hlength, hlengthB, List.map_cons, Effect.rests_cons, Nat.add_assoc]
    · have hif : (if 0 < v.effect.count then pushRows rows (count + 1) else pushRows rows count) =
          pushRows rows (count + if 0 < v.effect.count then 1 else 0) := by
        split
        · rfl
        · rfl
      have hrest := v.effect.rest_le_left.trans (left_le_room v)
      rw [pushRows, hround, hif, hloop, ← and_assoc, List.map_cons, Effect.counted_cons,
        Nat.add_assoc]
      refine and_congr_left' ?_
      rw [Effect.peak, List.length_append, List.length_append, hlengthB]
      show _ ↔ max v.effect.room (v.effect.rest + _) ≤ _
      omega

/-- What is pushed before the loop of an array or an object, and what is returned after it. -/
theorem Pile.of_rows (rows : List (Key D × Json D)) (start : Nat)
    (hv : v.effect = .table start (rows.map fun r => r.2.effect))
    (hpush : pushJson v = pushTable rows start)
    (hrows : ∀ r ∈ rows, ∃ W, Pile r.2 W) : ∃ W, Pile v W := by
  have htables : AllTables [(.table [] : Value D)] := List.forall_mem_singleton.mpr ⟨_, rfl⟩
  obtain ⟨A, hlength, hA, hloop⟩ := exists_pushRows hrows htables (List.cons_ne_nil _ _) start
  refine ⟨A, ?_, fun _ => hA, fun x hx => hA x (List.mem_of_mem_tail hx), fun s Q => ?_⟩
  · rw [hlength, hv, Nat.add_comm]
    rfl
  · have hstart : s.push (.table []) = ⟨[.table []] ++ s.stack, s.slots⟩ := rfl
    rw [hpush, hv, pushTable, returns_bind, createtable, returns_push, returns_bind, hstart, hloop,
      ← and_assoc]
    simp only [returns_pure, Effect.table]
    refine and_congr_left' ?_
    rw [State.free, List.length_append, List.length_singleton]
    omega

/-- A value that is pushed as it is. -/
theorem Pile.one {x : Value D} (hv : v.effect = .one)
    (hpush : pushJson v = push x >>= fun _ => pure 1) : ∃ W, Pile v W := by
  refine ⟨[x], ?_, fun hcount => ?_, nofun, fun s Q => ?_⟩
  · rw [hv]
    rfl
  · rw [hv] at hcount
    exact absurd Int.one_pos hcount
  · rw [hpush, hv, returns_pushOne]
    rfl

theorem Pile.zero (hv : v.effect = .zero) (hpush : pushJson v = pure 0) : Pile v [] where
  length := by
    rw [hv]
    rfl
  uncounted _ := nofun
  under := nofun
  returns s Q := by
    rw [hpush, hv, returns_pure]
    exact (and_iff_right (Nat.zero_le _)).symm

theorem exists_pile (v : Json D) : ∃ W, Pile v W := by
  induction v using children_induction with
  | _ v ih =>
    cases v with
    | array items =>
      by_cases hne : items = []
      · subst hne
        refine ⟨[], .zero rfl ?_⟩
        rw [pushJson, pushItems]
        rfl
      · have hitems : (numbered (D := D) 0 items).map Prod.snd = items := map_snd_numbered
        refine Pile.of_rows (numbered 0 items) 0 ?_ ?_ fun r hr => ?_
        · rw [effect_array hne, ← congrArg (List.map effect) hitems, List.map_map]
          rfl
        · exact pushJson_array hne
        · refine ih r.2 ?_
          rw [children, ← hitems]
          exact List.mem_map_of_mem hr
    | object members =>
      refine Pile.of_rows (members.map fun m => (.string (cStr m.1), m.2)) 1 ?_ ?_ fun r hr => ?_
      · rw [effect_object, List.map_map, List.map_map]
        rfl
      · exact pushJson_object
      · obtain ⟨m, hm, rfl⟩ := List.mem_map.mp hr
        exact ih m.2 (List.mem_map_of_mem hm)
    | binary => exact ⟨[], .zero rfl (by rw [pushJson])⟩
    | null | boolean | string | numberUnsigned | numberInteger | numberFloat =>
      exact Pile.one rfl (by rw [pushJson])

/-! ## The count and the stack -/

/-- One value more and a positive count, or nothing more and 0. -/
def Balanced (v : Json D) (s : State D) : Prop :=
  Returns (pushJson v) s fun c s' => (0 < c ∧ ∃ x, s' = s.push x) ∨ (c = 0 ∧ s' = s)

/-- Nothing is left over. -/
theorem balanced_iff_rest {s : State D} :
    Balanced v s ↔ v.effect.rest = 0 ∧ v.effect.room ≤ s.free := by
  obtain ⟨W, hW⟩ := exists_pile v
  have hpush : (∃ x, (⟨W ++ s.stack, s.slots⟩ : State D) = s.push x) ↔ v.effect.left = 1 := by
    rw [← hW.length, List.length_eq_one_iff]
    refine exists_congr fun x => ?_
    rw [State.push, State.mk.injEq, ← List.singleton_append (x := x), List.append_cancel_right_eq]
    exact and_iff_left rfl
  have hsame : (⟨W ++ s.stack, s.slots⟩ : State D) = s ↔ v.effect.left = 0 := by
    rw [← hW.length, List.length_eq_zero_iff]
    refine ⟨fun h => List.append_left_eq_self.mp (congrArg State.stack h), fun h => ?_⟩
    rw [h, List.nil_append]
  rw [Balanced, hW.returns, hpush, hsame, and_comm]
  refine and_congr_left' ?_
  have hpresent := present_of_count_ne_zero (v := v)
  have hleft := left_pos (v := v)
  rw [Effect.rest]
  split
  · next hcount =>
    have hpos := hleft (hpresent hcount.ne')
    omega
  · next hcount =>
    have hpos := fun hne => hleft (hpresent hne)
    omega

/-- **The count and the stack** agree exactly when each array with items counts some, no count is
more than an `int` holds, and there is room for each level. -/
theorem balanced_iff {s : State D} : Balanced v s ↔ v.Sound ∧ v.slots ≤ s.free := by
  rw [balanced_iff_rest, rest_eq_zero_iff]
  exact and_congr_right fun h => by rw [h.room_eq]

/-- An array in an array. -/
theorem not_balanced : ¬ Balanced (.array [.array []] : Json ℚ) ⟨[], 20⟩ := by
  rintro ⟨c, s', hrun, hbalanced⟩
  have hleft : pushJson (.array [.array []] : Json ℚ) ⟨[], 20⟩ = .ok (0, ⟨[.table []], 20⟩) := rfl
  rw [hleft, Except.ok.injEq, Prod.mk.injEq] at hrun
  obtain ⟨rfl, rfl⟩ := hrun
  rcases hbalanced with ⟨hcount, -⟩ | ⟨-, hstack⟩
  · exact absurd hcount (by decide)
  · cases hstack

end Wish.LuaFunction
