import Mathlib.Order.Lattice
import Mathlib.Data.List.Basic

/-!
# Ordered finite maps

A map from a linearly ordered key type, kept as its entries in increasing order of the
keys, so that the order of iteration is a function of the contents. The order of the
entries is a field: an unsorted map cannot be built. For a map sorted the other way round
the key type is the order dual.

`get?_set`, `get?_erase` and `begin?_eq_some_iff` describe the operations by their lookups,
and `ext_get?` says that the lookups determine the map.
-/

/-- A finite map with its entries in increasing order of the keys. -/
structure OrdMap (κ ν : Type*) [LinearOrder κ] where
  entries : List (κ × ν)
  sorted : entries.Pairwise fun a b => a.1 < b.1

namespace OrdMap

variable {κ ν : Type*} [LinearOrder κ] {m : OrdMap κ ν} {k k' : κ} {v v' : ν}

/-! ## Entries -/

/-- The value stored under `k`. -/
def lookup (k : κ) : List (κ × ν) → Option ν
  | [] => none
  | (k', v) :: es => if k = k' then some v else lookup k es

/-- Put `(k, v)` in its place, replacing an entry of `k`. -/
def insertEntry (k : κ) (v : ν) : List (κ × ν) → List (κ × ν)
  | [] => [(k, v)]
  | (k', v') :: es =>
    if k < k' then (k, v) :: (k', v') :: es
    else if k = k' then (k, v) :: es
    else (k', v') :: insertEntry k v es

theorem mem_insertEntry {es : List (κ × ν)} {e : κ × ν} (h : e ∈ insertEntry k v es) :
    e = (k, v) ∨ e ∈ es := by
  induction es with
  | nil => simpa [insertEntry] using h
  | cons e' es ih =>
    obtain ⟨k', v'⟩ := e'
    unfold insertEntry at h
    split at h
    · simpa using h
    · split at h
      · rcases List.mem_cons.mp h with rfl | h
        · exact Or.inl rfl
        · exact Or.inr (List.mem_cons_of_mem _ h)
      · rcases List.mem_cons.mp h with rfl | h
        · exact Or.inr List.mem_cons_self
        · exact (ih h).imp_right (List.mem_cons_of_mem _)

theorem insertEntry_sorted {es : List (κ × ν)} (h : es.Pairwise fun a b => a.1 < b.1) :
    (insertEntry k v es).Pairwise fun a b => a.1 < b.1 := by
  induction es with
  | nil => simp [insertEntry]
  | cons e es ih =>
    obtain ⟨k', v'⟩ := e
    obtain ⟨hhead, htail⟩ := List.pairwise_cons.mp h
    unfold insertEntry
    split
    · rename_i hlt
      refine List.pairwise_cons.mpr ⟨?_, h⟩
      intro e he
      rcases List.mem_cons.mp he with rfl | he
      · exact hlt
      · exact hlt.trans (hhead e he)
    · split
      · rename_i heq
        subst heq
        exact List.pairwise_cons.mpr ⟨hhead, htail⟩
      · rename_i hlt hne
        refine List.pairwise_cons.mpr ⟨?_, ih htail⟩
        intro e he
        rcases mem_insertEntry he with rfl | he
        · exact lt_of_le_of_ne (not_lt.mp hlt) (Ne.symm hne)
        · exact hhead e he

theorem mem_of_lookup {es : List (κ × ν)} (h : lookup k es = some v) : (k, v) ∈ es := by
  induction es with
  | nil => simp [lookup] at h
  | cons e es ih =>
    obtain ⟨k', v'⟩ := e
    unfold lookup at h
    split at h
    · rename_i hk
      cases h
      exact hk ▸ List.mem_cons_self
    · exact List.mem_cons_of_mem _ (ih h)

theorem lookup_of_mem {es : List (κ × ν)} (hs : es.Pairwise fun a b => a.1 < b.1)
    (h : (k, v) ∈ es) : lookup k es = some v := by
  induction es with
  | nil => simp at h
  | cons e es ih =>
    obtain ⟨k', v'⟩ := e
    obtain ⟨hhead, htail⟩ := List.pairwise_cons.mp hs
    rcases List.mem_cons.mp h with he | h
    · cases he
      simp [lookup]
    · have hlt : k' < k := hhead _ h
      rw [lookup, if_neg hlt.ne']
      exact ih htail h

theorem lookup_insertEntry {es : List (κ × ν)} (hs : es.Pairwise fun a b => a.1 < b.1) :
    lookup k' (insertEntry k v es) = if k' = k then some v else lookup k' es := by
  induction es with
  | nil => simp [insertEntry, lookup]
  | cons e es ih =>
    obtain ⟨k₁, v₁⟩ := e
    obtain ⟨hhead, htail⟩ := List.pairwise_cons.mp hs
    unfold insertEntry
    split
    · rfl
    · split
      · rename_i heq
        subst heq
        by_cases hk : k' = k <;> simp [lookup, hk]
      · rename_i hlt hne
        simp only [lookup, ih htail]
        by_cases hk : k' = k
        · subst hk
          simp [hne]
        · simp [hk]

theorem insertEntry_perm {es : List (κ × ν)} (h : k ∉ es.map Prod.fst) :
    (insertEntry k v es).Perm ((k, v) :: es) := by
  induction es with
  | nil => exact .refl _
  | cons e es ih =>
    obtain ⟨k', v'⟩ := e
    obtain ⟨hne, hes⟩ := not_or.mp (List.mem_cons.not.mp h)
    unfold insertEntry
    split
    · exact .refl _
    · exact ((ih hes).cons _).trans (.swap _ _ _)

/-- Insertions in any order give the sorted list. -/
theorem foldl_insertEntry {es es' : List (κ × ν)} (hperm : es'.Perm es)
    (hs : es.Pairwise fun a b => a.1 < b.1) :
    es'.foldl (fun acc e => insertEntry e.1 e.2 acc) [] = es := by
  have hrun : ∀ l acc : List (κ × ν), ((acc ++ l).map Prod.fst).Nodup →
      (acc.Pairwise fun a b => a.1 < b.1) →
      (l.foldl (fun acc e => insertEntry e.1 e.2 acc) acc).Perm (acc ++ l) ∧
        (l.foldl (fun acc e => insertEntry e.1 e.2 acc) acc).Pairwise fun a b => a.1 < b.1 := by
    intro l
    induction l with
    | nil => exact fun acc _ hacc => ⟨by simp, hacc⟩
    | cons e l ih =>
      intro acc hnodup hacc
      have hmid := hnodup
      rw [(List.perm_middle.map Prod.fst).nodup_iff, List.map_cons, List.nodup_cons] at hmid
      have hfresh : e.1 ∉ acc.map Prod.fst := fun hmem =>
        hmid.1 (List.map_append ▸ List.mem_append_left _ hmem)
      have hins := insertEntry_perm (v := e.2) hfresh
      have hstep : (insertEntry e.1 e.2 acc ++ l).Perm (acc ++ e :: l) :=
        (hins.append_right l).trans List.perm_middle.symm
      obtain ⟨hp, hsorted⟩ := ih _ ((hstep.map _).nodup_iff.mpr hnodup) (insertEntry_sorted hacc)
      exact ⟨hp.trans hstep, hsorted⟩
  have hnodup : (es.map Prod.fst).Nodup := List.pairwise_map.mpr (hs.imp fun hlt => hlt.ne)
  obtain ⟨hp, hsorted⟩ := hrun es' [] ((hperm.map _).nodup_iff.mpr hnodup) .nil
  exact (hp.trans hperm).eq_of_pairwise (fun a b _ _ hab hba => absurd hab hba.not_gt) hsorted hs

/-! ## Maps -/

/-- The empty map. -/
def empty : OrdMap κ ν := ⟨[], .nil⟩

/-- The value stored under `k`. -/
def get? (m : OrdMap κ ν) (k : κ) : Option ν := lookup k m.entries

/-- Store `v` under `k`. -/
def set (m : OrdMap κ ν) (k : κ) (v : ν) : OrdMap κ ν :=
  ⟨insertEntry k v m.entries, insertEntry_sorted m.sorted⟩

/-- Store `v` under `k`, if there is nothing yet. -/
def insert (m : OrdMap κ ν) (k : κ) (v : ν) : OrdMap κ ν :=
  if m.get? k = none then m.set k v else m

/-- Remove the entry of `k`. -/
def erase (m : OrdMap κ ν) (k : κ) : OrdMap κ ν :=
  ⟨m.entries.filter fun e => e.1 ≠ k, m.sorted.filter _⟩

/-- The entry with the least key. -/
def begin? (m : OrdMap κ ν) : Option (κ × ν) := m.entries.head?

def isEmpty (m : OrdMap κ ν) : Bool := m.entries.isEmpty

@[simp] theorem get?_empty : (empty : OrdMap κ ν).get? k = none := rfl

@[simp] theorem get?_set : (m.set k v).get? k' = if k' = k then some v else m.get? k' :=
  lookup_insertEntry m.sorted

theorem get?_insert_self (h : m.get? k = none) : (m.insert k v).get? k = some v := by
  rw [insert, if_pos h, get?_set, if_pos rfl]

theorem get?_insert_of_ne (h : k' ≠ k) : (m.insert k v).get? k' = m.get? k' := by
  rw [insert]
  split
  · rw [get?_set, if_neg h]
  · rfl

theorem get?_eq_some_iff : m.get? k = some v ↔ (k, v) ∈ m.entries :=
  ⟨mem_of_lookup, lookup_of_mem m.sorted⟩

@[simp] theorem get?_erase : (m.erase k).get? k' = if k' = k then none else m.get? k' := by
  apply Option.ext
  intro v
  rw [get?_eq_some_iff]
  by_cases hk : k' = k
  · simp [erase, hk]
  · rw [if_neg hk, get?_eq_some_iff]
    simp [erase, hk]

theorem ext_get? {m' : OrdMap κ ν} (h : ∀ k, m.get? k = m'.get? k) : m = m' := by
  have hmem : ∀ e, e ∈ m.entries ↔ e ∈ m'.entries := by
    rintro ⟨k, v⟩
    rw [← get?_eq_some_iff, ← get?_eq_some_iff, h]
  have hnodup : ∀ m : OrdMap κ ν, m.entries.Nodup := fun m =>
    m.sorted.imp fun hlt he => hlt.ne (congrArg Prod.fst he)
  have hperm := (List.perm_ext_iff_of_nodup (hnodup m) (hnodup m')).mpr hmem
  have heq : m.entries = m'.entries :=
    hperm.eq_of_pairwise (fun a b _ _ hab hba => absurd hab hba.not_gt) m.sorted m'.sorted
  cases m
  cases m'
  cases heq
  rfl

theorem begin?_eq_some_iff :
    m.begin? = some (k, v) ↔ m.get? k = some v ∧ ∀ k' v', m.get? k' = some v' → k ≤ k' := by
  have hs := m.sorted
  simp only [get?_eq_some_iff, begin?]
  cases hm : m.entries with
  | nil => simp
  | cons e es =>
    obtain ⟨k₁, v₁⟩ := e
    rw [hm] at hs
    obtain ⟨hhead, -⟩ := List.pairwise_cons.mp hs
    constructor
    · intro h
      simp only [List.head?_cons, Option.some.injEq, Prod.mk.injEq] at h
      obtain ⟨rfl, rfl⟩ := h
      refine ⟨List.mem_cons_self, fun k' v' hk' => ?_⟩
      rcases List.mem_cons.mp hk' with he | hk'
      · cases he; exact le_rfl
      · exact (hhead _ hk').le
    · rintro ⟨hmem, hle⟩
      rcases List.mem_cons.mp hmem with he | hmem
      · cases he; rfl
      · exact absurd (hhead _ hmem) (not_lt.mpr (hle k₁ v₁ List.mem_cons_self))

theorem begin?_eq_none_iff : m.begin? = none ↔ ∀ k, m.get? k = none := by
  constructor
  · intro h k
    have hm : m.entries = [] := List.head?_eq_none_iff.mp h
    simp [get?, hm, lookup]
  · intro h
    cases hb : m.begin? with
    | none => rfl
    | some e =>
      have := (begin?_eq_some_iff.mp hb).1
      rw [h] at this
      cases this

end OrdMap
