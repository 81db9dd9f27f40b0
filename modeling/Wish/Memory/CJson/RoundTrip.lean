import Wish.Memory.CJson.Buffers
import Wish.Memory.CJson.Grammar

/-!
# Printing and parsing again

`memory/face++_pro/parseJson/cJSON.c`: what `print_value` writes is a JSON text for the item that
it has been given, in either format (`json_print`), so that `parse_value` gives the item back
(`parse_print`), where the printer has come to its end. The numbers have to be those of an `int`
(`Small`), and no string may hold a NUL (`Item.Formed`).
-/

namespace Wish.CJson

variable {D : Type} [Double D] {c : Char} {s rest : Text}

/-! ## Strings and numbers -/

theorem hexValue_hexDigit {k : ℕ} (h : k < 16) : hexValue (hexDigit k) = some k := by
  interval_cases k <;> rfl

theorem hex4_spec {k : ℕ} (h : k < 2 ^ 16) : Hex4 (hex4 k) k := by
  have hdigits := Hex4.digits (hexValue_hexDigit (Nat.mod_lt (k / 4096) (by decide : 0 < 16)))
    (hexValue_hexDigit (Nat.mod_lt (k / 256) (by decide : 0 < 16)))
    (hexValue_hexDigit (Nat.mod_lt (k / 16) (by decide : 0 < 16)))
    (hexValue_hexDigit (Nat.mod_lt k (by decide : 0 < 16)))
  have hvalue : ((k / 4096 % 16 * 16 + k / 256 % 16) * 16 + k / 16 % 16) * 16 + k % 16 = k := by
    omega
  rw [hvalue] at hdigits
  exact hdigits

/-- What is printed for a character stands for it. -/
theorem Spells.printChar {t v : Text} (h : Spells t v) (hc : c ≠ '\x00') :
    Spells (printChar c ++ t) (c :: v) := by
  unfold CJson.printChar
  split
  · rename_i hplain
    simp only [Bool.and_eq_true, decide_eq_true_eq, bne_iff_ne] at hplain
    exact .raw c hplain.1.2 hplain.2 h
  · rename_i hplain
    split
    · rename_i e he
      exact .short c e he h
    · rename_i hnone
      have hlow : c.toNat ≤ 31 := by
        by_contra hhigh
        simp only [Bool.and_eq_true, decide_eq_true_eq, bne_iff_ne, not_and_or, not_not] at hplain
        rcases hplain with (hplain | rfl) | rfl
        · omega
        · cases hnone
        · cases hnone
      have hbyte : utf8 c = [c] := by
        rcases utf8_bytes c with ⟨-, h⟩ | ⟨h, -⟩
        · exact h
        · omega
      have hunit := Spells.unit c (hex4_spec (k := c.toNat) (by omega)) hc h
      rw [hbyte] at hunit
      exact hunit

theorem spells_print (hs : '\x00' ∉ s) : Spells (s.flatMap printChar) s := by
  induction s with
  | nil => exact .nil
  | cons c s ih =>
    obtain ⟨hc, hs⟩ := not_or.mp (fun h => hs (List.mem_cons.mpr h))
    exact (ih hs).printChar (Ne.symm hc)

/-- A number that an `int` can hold is printed as the `int`. -/
theorem isInt_ofInt {i : ℤ} (hlow : -2 ^ 31 ≤ i) (hhigh : i < 2 ^ 31) :
    isInt i (Double.ofInt (D := D) i) = true := by
  have hself := Double.fabs_sub_self (D := D) i (by omega)
  have hmax := Double.le_ofInt (D := D) i (2 ^ 31 - 1) (by omega) (by decide) (by omega)
  have hmin := Double.le_ofInt (D := D) (-2 ^ 31) i (by decide) (by omega) (by omega)
  rw [isInt, hself, hmax, hmin]
  rfl

theorem numberText_ofInt {i : ℤ} (hlow : -2 ^ 31 ≤ i) (hhigh : i < 2 ^ 31) :
    numberText i (Double.ofInt (D := D) i) = printInt i := by
  rw [numberText, if_pos (isInt_ofInt hlow hhigh)]

/-! ## Items -/

mutual

/-- What a parsed item looks like: the values of an array have no name, those of an object have one,
no string is missing or holds a NUL, and the numbers are as `N` says. -/
def Item.Formed (N : ℤ → D → Prop) : Item D → Prop
  | .null => True
  | .false => True
  | .true => True
  | .number valueint valuedouble => N valueint valuedouble
  | .string valuestring => ∃ s, valuestring = some s ∧ '\x00' ∉ s
  | .array child => child.Unnamed N
  | .object child => child.Named N

def Items.Unnamed (N : ℤ → D → Prop) : Items D → Prop
  | .nil => True
  | .cons string item next => string = none ∧ item.Formed N ∧ next.Unnamed N

def Items.Named (N : ℤ → D → Prop) : Items D → Prop
  | .nil => True
  | .cons string item next =>
    (∃ s, string = some s ∧ '\x00' ∉ s) ∧ item.Formed N ∧ next.Named N

end

section Numbers

omit [Double D]

mutual

theorem Item.Formed.numbers {N : ℤ → D → Prop} (item : Item D) (h : item.Formed N) :
    item.Numbers N := by
  cases item with
  | null => trivial
  | false => trivial
  | true => trivial
  | number => exact h
  | string => trivial
  | array child => exact Items.Unnamed.numbers child h
  | object child => exact Items.Named.numbers child h

theorem Items.Unnamed.numbers {N : ℤ → D → Prop} (child : Items D) (h : child.Unnamed N) :
    child.Numbers N := by
  cases child with
  | nil => trivial
  | cons string item next =>
    exact ⟨Item.Formed.numbers item h.2.1, Items.Unnamed.numbers next h.2.2⟩

theorem Items.Named.numbers {N : ℤ → D → Prop} (child : Items D) (h : child.Named N) :
    child.Numbers N := by
  cases child with
  | nil => trivial
  | cons string item next =>
    exact ⟨Item.Formed.numbers item h.2.1, Items.Named.numbers next h.2.2⟩

end

end Numbers

/-- The number of an `int`. -/
def Small (valueint : ℤ) (valuedouble : D) : Prop :=
  (-2 ^ 31 ≤ valueint ∧ valueint < 2 ^ 31) ∧ valuedouble = Double.ofInt valueint

theorem white_tabs (fmt : Bool) (depth : ℕ) : White (tabs fmt depth) := by
  intro c hc
  cases fmt with
  | false => exact absurd hc List.not_mem_nil
  | true =>
    rw [List.eq_of_mem_replicate hc]
    decide

/-- The white space of the format. -/
theorem white_fmt (fmt : Bool) (h : c.toNat ≤ 32) : White (if fmt then [c] else []) := by
  cases fmt with
  | false => exact .nil
  | true =>
    intro c' hc
    rw [List.mem_singleton.mp hc]
    exact h

theorem Entries.white {t w : Text} {child : Items D} (h : Entries White t child) (hw : White w) :
    Entries White (w ++ t) child := by
  cases h with
  | last hw₀ h hw' =>
    rw [← List.append_assoc]
    exact .last (hw.append hw₀) h hw'
  | cons hw₀ h hw' hnext =>
    rw [← List.append_assoc]
    exact .cons (hw.append hw₀) h hw' hnext

theorem Members.white {t w : Text} {child : Items D} (h : Members White t child) (hw : White w) :
    Members White (w ++ t) child := by
  cases h with
  | last hw₀ hn hw₁ hw₂ h hw' =>
    rw [← List.append_assoc]
    exact .last (hw.append hw₀) hn hw₁ hw₂ h hw'
  | cons hw₀ hn hw₁ hw₂ h hw' hnext =>
    rw [← List.append_assoc]
    exact .cons (hw.append hw₀) hn hw₁ hw₂ h hw' hnext

/-- The entry that `print_array` puts before the others. -/
theorem entries_print {item : Item D} {next : Items D} {depth : ℕ} {fmt : Bool}
    (h : Json White (valueText item depth fmt) item)
    (hnext : next = .nil ∨ Entries White (entriesText next depth fmt) next) :
    Entries White (entriesText (.cons none item next) depth fmt) (.cons none item next) := by
  cases next with
  | nil =>
    have hlast := Entries.last White.nil h White.nil
    simpa [entriesText, comma, Items.isNil] using hlast
  | cons string item' next =>
    rcases hnext with hnext | hnext
    · cases hnext
    · have hcons := Entries.cons White.nil h White.nil (hnext.white (white_fmt (c := ' ') fmt (by decide)))
      rw [entriesText]
      simpa [comma, Items.isNil] using hcons

/-- The member that `print_object` puts before the others. -/
theorem members_print {item : Item D} {next : Items D} {depth : ℕ} {fmt : Bool} {w : Text}
    (hs : '\x00' ∉ s) (h : Json White (valueText item depth fmt) item) (hw : White w)
    (hnext : next = .nil ∨ Members White (membersText next depth fmt ++ w) next) :
    Members White (membersText (.cons (some s) item next) depth fmt ++ w)
      (.cons (some s) item next) := by
  have htabs := white_tabs fmt depth
  have htab : White (if fmt then ['\t'] else []) := white_fmt fmt (by decide)
  have hline : White (if fmt then ['\n'] else []) := white_fmt fmt (by decide)
  cases next with
  | nil =>
    have hlast := Members.last htabs (spells_print hs) White.nil htab h (hline.append hw)
    simpa [membersText, stringText, comma] using hlast
  | cons string item' next =>
    rcases hnext with hnext | hnext
    · cases hnext
    · have hcons := Members.cons htabs (spells_print hs) White.nil htab h White.nil (hnext.white hline)
      rw [membersText]
      simpa [stringText, comma] using hcons

-- by recursion on the item, as `print_value` goes
mutual

theorem json_print (item : Item D) (h : item.Formed Small) (depth : ℕ) (fmt : Bool) :
    Json White (valueText item depth fmt) item := by
  cases item with
  | null => exact .null
  | false => exact .false
  | true => exact .true
  | number valueint valuedouble =>
    obtain ⟨⟨hlow, hhigh⟩, rfl⟩ := h
    rw [valueText, numberText_ofInt hlow hhigh]
    exact .number valueint hlow hhigh
  | string valuestring =>
    obtain ⟨s, rfl, hs⟩ := h
    exact .string (spells_print hs)
  | array child =>
    rw [valueText]
    rcases unnamed_print child h (depth + 1) fmt with rfl | hentries
    · exact .noEntries .nil
    · exact .entries hentries
  | object child =>
    rw [valueText]
    split
    · rename_i hnil
      cases child with
      | cons => cases hnil
      | nil =>
        refine .noMembers ?_
        cases fmt with
        | false => exact .nil
        | true => exact (white_fmt (c := '\n') true (by decide)).append (white_tabs true _)
    · rename_i hnil
      rcases named_print child h (depth + 1) fmt (white_tabs fmt depth) with rfl | hmembers
      · exact absurd rfl hnil
      · have hwhite := Json.members (hmembers.white (white_fmt (c := '\n') fmt (by decide)))
        simpa using hwhite

theorem unnamed_print (child : Items D) (h : child.Unnamed Small) (depth : ℕ) (fmt : Bool) :
    child = .nil ∨ Entries White (entriesText child depth fmt) child := by
  cases child with
  | nil => exact Or.inl rfl
  | cons string item next =>
    obtain ⟨rfl, hitem, hnext⟩ := h
    exact Or.inr (entries_print (json_print item hitem depth fmt)
      (unnamed_print next hnext depth fmt))

theorem named_print (child : Items D) (h : child.Named Small) (depth : ℕ) (fmt : Bool) {w : Text}
    (hw : White w) : child = .nil ∨ Members White (membersText child depth fmt ++ w) child := by
  cases child with
  | nil => exact Or.inl rfl
  | cons string item next =>
    obtain ⟨⟨s, rfl, hs⟩, hitem, hnext⟩ := h
    exact Or.inr (members_print hs (json_print item hitem depth fmt) hw
      (named_print next hnext depth fmt hw))

end

theorem Small.fitting {i : ℤ} {d : D} (h : Small i d) : Fitting i d := by
  obtain ⟨⟨hlow, hhigh⟩, rfl⟩ := h
  have hlength := length_printInt hlow hhigh
  rw [Fitting, numberText_ofInt hlow hhigh, if_pos (isInt_ofInt hlow hhigh)]
  omega

/-- What a printer has given is a JSON text that an `int` can measure. -/
theorem json_printed {item : Item D} {fmt : Bool} {t : Text} (h : item.Formed Small)
    (hprint : printValue item 0 fmt = .ok t) : Json White t item ∧ t.length < 2 ^ 31 := by
  have hfitting := Item.Numbers.mono (fun _ _ h => Small.fitting h) item (Item.Formed.numbers item h)
  obtain ⟨rfl, hlen⟩ := printValue_ok hfitting hprint
  exact ⟨json_print item h 0 fmt, by omega⟩

theorem parseWithOpts_printed {item : Item D} {fmt : Bool} {t : Text} (h : item.Formed Small)
    (hprint : printValue item 0 fmt = .ok t) : parseWithOpts t true = .ok (item, []) := by
  obtain ⟨hjson, hlen⟩ := json_printed h hprint
  have hwhole := parseWithOpts_whole hjson hlen .nil .nil
  rw [List.append_nil] at hwhole
  exact hwhole

/-- **What is printed is parsed again**, in either format and before anything that does not go on
with a number; `require_null_terminated` is content with it, too. -/
theorem parse_print {item : Item D} {fmt : Bool} {t : Text} (h : item.Formed Small)
    (hprint : printValue item 0 fmt = .ok t) (hrest : Stops rest) :
    parseWithOpts (t ++ rest) false = .ok (item, rest) ∧
      parseWithOpts t true = .ok (item, []) := by
  obtain ⟨hjson, hlen⟩ := json_printed h hprint
  exact ⟨parseWithOpts_before hjson hlen .nil hrest, parseWithOpts_printed h hprint⟩

/-- `{"a\t": [-20, null], "": {}}` -/
def nested : Item ℚ :=
  .object (.cons (some ['a', '\t'])
    (.array (.cons none (.number (-20) (Double.ofInt (-20))) (.cons none .null .nil)))
      (.cons (some []) (.object .nil) .nil))

theorem parse_print_nested :
    ∃ t, printValue nested 0 true = .ok t ∧
      parseWithOpts (t ++ [',']) false = .ok (nested, [',']) ∧
      parseWithOpts t true = .ok (nested, []) := by
  have hprint : printValue nested 0 true = .ok (valueText nested 0 true) := by decide +kernel
  refine ⟨_, hprint, parse_print ?_ hprint (stops_separator (Or.inl rfl) [])⟩
  refine ⟨⟨_, rfl, by decide⟩, ⟨rfl, ⟨by decide, rfl⟩, rfl, trivial, trivial⟩, ?_⟩
  exact ⟨⟨_, rfl, by decide⟩, trivial, trivial⟩

end Wish.CJson
