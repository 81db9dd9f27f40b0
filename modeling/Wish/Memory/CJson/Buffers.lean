import Wish.Memory.CJson

/-!
# The buffers of the printers

`memory/face++_pro/parseJson/cJSON.c`: the printers add up in an `int` how much they are going to
write, ask `cJSON_malloc` for it, and do not look at the size again. What they write is a text that
does not depend on any of this (`valueText`). `printValue_fits`: they write it into a buffer that is
large enough, or their `int` has left its range, for which the text has to be very long.
-/

namespace Wish.CJson

variable {D α β : Type}

/-! ## What is written -/

/-- What `print_string_ptr` writes. -/
def stringText : Option Text → Text
  | none => []
  | some str => '"' :: (str.flatMap printChar ++ ['"'])

/-- `if (i!=numentries-1) *ptr++=','` -/
def comma : Items D → Text
  | .nil => []
  | .cons _ _ _ => [',']

def Items.isNil : Items D → Bool
  | .nil => true
  | .cons _ _ _ => false

mutual

/-- What `print_value` writes. -/
def valueText [Double D] (item : Item D) (depth : ℕ) (fmt : Bool) : Text :=
  match item with
  | .null => nullText
  | .false => falseText
  | .true => trueText
  | .number valueint valuedouble => numberText valueint valuedouble
  | .string valuestring => stringText valuestring
  | .array child => '[' :: (entriesText child (depth + 1) fmt ++ [']'])
  | .object child =>
    if child.isNil then
      '{' :: ((if fmt then '\n' :: tabs fmt (depth - 1) else []) ++ ['}'])
    else
      '{' :: ((if fmt then ['\n'] else []) ++ membersText child (depth + 1) fmt ++
        tabs fmt depth ++ ['}'])

/-- What `print_array` writes between the brackets. -/
def entriesText [Double D] (child : Items D) (depth : ℕ) (fmt : Bool) : Text :=
  match child with
  | .nil => []
  | .cons _ item next =>
    valueText item depth fmt ++
      (comma next ++ if !next.isNil && fmt then [' '] else []) ++ entriesText next depth fmt

/-- What `print_object` writes between the braces, for `depth++`. -/
def membersText [Double D] (child : Items D) (depth : ℕ) (fmt : Bool) : Text :=
  match child with
  | .nil => []
  | .cons string item next =>
    tabs fmt depth ++ stringText string ++ ':' :: (if fmt then ['\t'] else []) ++
      valueText item depth fmt ++ comma next ++ (if fmt then ['\n'] else []) ++
        membersText next depth fmt

end

mutual

/-- All numbers of an item are as `N` says. -/
def Item.Numbers (N : ℤ → D → Prop) : Item D → Prop
  | .null => True
  | .false => True
  | .true => True
  | .number valueint valuedouble => N valueint valuedouble
  | .string _ => True
  | .array child => child.Numbers N
  | .object child => child.Numbers N

def Items.Numbers (N : ℤ → D → Prop) : Items D → Prop
  | .nil => True
  | .cons _ item next => item.Numbers N ∧ next.Numbers N

end

mutual

theorem Item.Numbers.mono {N N' : ℤ → D → Prop} (hN : ∀ i d, N i d → N' i d) (item : Item D)
    (h : item.Numbers N) : item.Numbers N' := by
  cases item with
  | null => trivial
  | false => trivial
  | true => trivial
  | number valueint valuedouble => exact hN _ _ h
  | string => trivial
  | array child => exact Items.Numbers.mono hN child h
  | object child => exact Items.Numbers.mono hN child h

theorem Items.Numbers.mono {N N' : ℤ → D → Prop} (hN : ∀ i d, N i d → N' i d) (child : Items D)
    (h : child.Numbers N) : child.Numbers N' := by
  cases child with
  | nil => trivial
  | cons string item next =>
    exact ⟨Item.Numbers.mono hN item h.1, Items.Numbers.mono hN next h.2⟩

end

/-! ## Printers -/

/-- What a printer gives: something for which `P` holds, or an `int` that leaves its range, which it
does not do under the condition `enough`. -/
def Prints (enough : Prop) (P : α → Prop) : Result α → Prop
  | .ok a => P a
  | .error e => e = .fault .overflow ∧ ¬enough

/-- One printer after the other. -/
theorem Prints.bind {enough enough' : Prop} {P : α → Prop} {Q : β → Prop} {r : Result α}
    {f : α → Result β} (h : Prints enough' P r) (henough : enough → enough')
    (hf : ∀ a, P a → Prints enough Q (f a)) : Prints enough Q (r >>= f) := by
  match r with
  | .ok a => exact hf a h
  | .error e => exact ⟨h.1, fun he => h.2 (henough he)⟩

theorem Prints.mono {enough enough' : Prop} {P : α → Prop} {r : Result α} (h : Prints enough' P r)
    (henough : enough → enough') : Prints enough P r := by
  match r with
  | .ok a => exact h
  | .error e => exact ⟨h.1, fun he => h.2 (henough he)⟩

theorem prints_int {enough : Prop} {n : ℕ} (h : enough → n < 2 ^ 31) :
    Prints enough (fun m => m = n ∧ n < 2 ^ 31) (int n) := by
  unfold int
  split
  · rename_i hlt
    exact ⟨rfl, hlt⟩
  · rename_i hlt
    exact ⟨rfl, fun he => hlt (h he)⟩

/-- The text `t`, which an `int` can measure with its NUL. -/
def Written (t u : Text) : Prop := u = t ∧ t.length + 1 < 2 ^ 31

theorem prints_place {enough : Prop} {size : ℕ} {t : Text} (h : t.length + 1 ≤ size)
    (hsize : size < 2 ^ 31) : Prints enough (Written t) (place size t) := by
  rw [place, if_pos h]
  exact ⟨rfl, lt_of_le_of_lt h hsize⟩

/-! ## Strings and numbers -/

theorem shortEscape_eq_none {c : Char} (h : c ∉ escaped) : shortEscape c = none := by
  unfold shortEscape
  split
  all_goals first | rfl | exact absurd (by decide) h

theorem length_printChar (c : Char) : (printChar c).length =
    1 + if c ∈ escaped then 1 else if c.toNat < 32 then 5 else 0 := by
  by_cases hmem : c ∈ escaped
  · rw [if_pos hmem]
    simp only [escaped, List.mem_cons, List.not_mem_nil, or_false] at hmem
    rcases hmem with rfl | rfl | rfl | rfl | rfl | rfl | rfl
    all_goals rfl
  · have hne : c ≠ '"' ∧ c ≠ '\\' := by
      constructor
      all_goals
        rintro rfl
        exact hmem (by decide)
    rw [if_neg hmem, printChar, shortEscape_eq_none hmem]
    by_cases hlow : c.toNat < 32
    · rw [if_pos hlow, if_neg (by simp [show ¬31 < c.toNat by omega])]
      rfl
    · rw [if_neg hlow, if_pos (by simp [show 31 < c.toNat by omega, hne])]
      rfl

theorem prints_countEscaped (str : Text) (len : ℕ) :
    Prints (len + (str.flatMap printChar).length < 2 ^ 31)
      (fun n => n = len + (str.flatMap printChar).length) (countEscaped len str) := by
  induction str generalizing len with
  | nil => exact rfl
  | cons c str ih =>
    rw [List.flatMap_cons, List.length_append, length_printChar, countEscaped]
    refine (prints_int fun h => by omega).bind id ?_
    rintro n ⟨rfl, -⟩
    refine (prints_int fun h => by omega).bind id ?_
    rintro n ⟨rfl, -⟩
    have hrest := ih (len + 1 + if c ∈ escaped then 1 else if c.toNat < 32 then 5 else 0)
    simpa only [Nat.add_assoc] using hrest

theorem prints_string (string : Option Text) :
    Prints ((stringText string).length + 1 < 2 ^ 31) (Written (stringText string))
      (printStringPtr string) := by
  cases string with
  | none => exact prints_place le_rfl (by decide)
  | some str =>
    have hlength : (stringText (some str)).length = (str.flatMap printChar).length + 2 := by
      simp [stringText]
    refine (prints_countEscaped str 0).bind (fun h => by omega) ?_
    rintro len rfl
    refine (prints_int fun h => by omega).bind id ?_
    rintro size ⟨rfl, hsize⟩
    exact prints_place (t := stringText (some str)) (by omega) hsize

variable [Double D]

/-- How long the texts of `sprintf` are, where a format is used: a sign and 60 digits below `1.0e60`,
at most three digits of an exponent, ten digits before the point. -/
structure Short (d : D) : Prop where
  whole : Double.lt (Double.fabs d) Double.e60 = true → (Double.sprintf .whole d).length ≤ 61
  exponent : (Double.sprintf .exponent d).length ≤ 14
  fraction : Double.lt Double.e9 (Double.fabs d) = false → (Double.sprintf .fraction d).length ≤ 18

theorem length_printInt {i : ℤ} (hlow : -2 ^ 31 ≤ i) (hhigh : i < 2 ^ 31) :
    (printInt i).length ≤ 11 := by
  have hdigits : (Nat.toDigits 10 i.natAbs).length ≤ 10 :=
    (Nat.length_toDigits_le_iff (by decide) (by decide)).mpr (by omega)
  unfold printInt
  split
  · rw [List.length_cons]
    omega
  · omega

/-- The text of a number fits into the buffer of `print_number`. -/
def Fitting (valueint : ℤ) (d : D) : Prop :=
  (numberText valueint d).length + 1 ≤ if isInt valueint d then 21 else 64

/-- The number of an `int`, with a `double` whose texts are short. -/
def Printable (valueint : ℤ) (d : D) : Prop :=
  (-2 ^ 31 ≤ valueint ∧ valueint < 2 ^ 31) ∧ Short d

theorem Printable.fitting {i : ℤ} {d : D} (h : Printable i d) : Fitting i d := by
  obtain ⟨⟨hlow, hhigh⟩, hshort⟩ := h
  have hint := length_printInt hlow hhigh
  have hexponent := hshort.exponent
  unfold Fitting numberText
  split
  · omega
  split
  · rename_i hwhole
    rw [Bool.and_eq_true] at hwhole
    have hle := hshort.whole hwhole.2
    omega
  split
  · omega
  · rename_i hfraction
    rw [Bool.not_eq_true, Bool.or_eq_false_iff] at hfraction
    have hle := hshort.fraction hfraction.2
    omega

theorem prints_number {enough : Prop} {i : ℤ} {d : D} (h : Fitting i d) :
    Prints enough (Written (numberText i d)) (printNumber i d) := by
  refine prints_place h ?_
  split
  all_goals decide

/-! ## Arrays -/

/-- What the entries of an array add to `len`. -/
def lenEntries (child : Items D) (depth : ℕ) (fmt : Bool) : ℕ :=
  match child with
  | .nil => 0
  | .cons _ item next =>
    (valueText item depth fmt).length + 2 + (if fmt then 1 else 0) + lenEntries next depth fmt

/-- `len` for the entries of an array is no less than their text, and about twice as much at most. -/
theorem lenEntries_bounds (child : Items D) (depth : ℕ) (fmt : Bool) :
    (entriesText child depth fmt).length ≤ lenEntries child depth fmt ∧
      2 * child.length ≤ lenEntries child depth fmt ∧
      lenEntries child depth fmt ≤ 2 * (entriesText child depth fmt).length + 3 := by
  cases child with
  | nil => exact ⟨le_rfl, le_rfl, Nat.zero_le _⟩
  | cons string item next =>
    obtain ⟨hlow, hcount, hhigh⟩ := lenEntries_bounds next depth fmt
    rw [entriesText, lenEntries, Items.length, List.length_append, List.length_append]
    cases next with
    | nil =>
      simp only [comma, Items.isNil, entriesText, lenEntries, Items.length, Bool.not_true,
        Bool.false_and, Bool.false_eq_true, if_false, List.append_nil, List.length_nil]
      split
      all_goals omega
    | cons _ _ _ =>
      simp only [comma, Items.isNil, Bool.not_false, Bool.true_and, List.length_append,
        List.length_singleton]
      cases fmt with
      | false =>
        simp only [Bool.false_eq_true, if_false, List.length_nil]
        omega
      | true =>
        simp only [if_true, List.length_singleton]
        omega

/-- What the first loop of `print_array` leaves. -/
structure EntriesPrinted (child : Items D) (depth : ℕ) (fmt : Bool) (len : ℕ)
    (p : List Text × ℕ) : Prop where
  text : composeEntries fmt p.1 = entriesText child depth fmt
  isEmpty : p.1.isEmpty = child.isNil
  len_eq : p.2 = len + lenEntries child depth fmt
  len_lt : p.2 < 2 ^ 31

/-- The printer on an item, at any depth. -/
def PrintsValue (item : Item D) : Prop :=
  ∀ depth fmt, Prints (depth + (valueText item depth fmt).length ≤ 10 ^ 9)
    (Written (valueText item depth fmt)) (printValue item depth fmt)

/-- The first loop of `print_array` on the children. -/
def PrintsEntries (child : Items D) : Prop :=
  ∀ depth fmt len, len < 2 ^ 31 →
    Prints (len + lenEntries child depth fmt < 2 ^ 31 ∧
        depth + (entriesText child depth fmt).length ≤ 10 ^ 9)
      (EntriesPrinted child depth fmt len) (printEntries child depth fmt len)

theorem composeEntries_cons (fmt : Bool) (ret : Text) (entries : List Text) :
    composeEntries fmt (ret :: entries) =
      ret ++ (if entries.isEmpty then [] else ',' :: if fmt then [' '] else []) ++
        composeEntries fmt entries := by
  cases entries with
  | nil => simp [composeEntries]
  | cons => rfl

theorem printsEntries_cons {string : Option Text} {item : Item D} {next : Items D}
    (hitem : PrintsValue item) (hnext : PrintsEntries next) :
    PrintsEntries (.cons string item next) := by
  intro depth fmt len hlen
  have htext : entriesText (.cons string item next) depth fmt =
      valueText item depth fmt ++ (if next.isNil then [] else ',' :: if fmt then [' '] else []) ++
        entriesText next depth fmt := by
    cases next <;> simp [entriesText, comma, Items.isNil]
  have hlength : (entriesText (.cons string item next) depth fmt).length =
      (valueText item depth fmt).length +
        (if next.isNil then [] else ',' :: if fmt then [' '] else []).length +
        (entriesText next depth fmt).length := by
    rw [htext, List.length_append, List.length_append]
  rw [printEntries, hlength, lenEntries]
  refine (hitem depth fmt).bind (fun h => by omega) ?_
  rintro ret ⟨rfl, -⟩
  refine (prints_int fun h => by omega).bind id ?_
  rintro len' ⟨rfl, hlen'⟩
  refine (hnext depth fmt _ hlen').bind (fun h => by omega) ?_
  rintro ⟨entries, len'⟩ ⟨hcompose, hempty, hsum, hlt⟩
  refine ⟨?_, rfl, ?_, hlt⟩
  · rw [composeEntries_cons, hempty, hcompose, htext]
  · rw [hsum, lenEntries]
    omega

/-- `print_array`, where the first loop does what it should. -/
theorem printsValue_array {child : Items D} (hchild : PrintsEntries child) :
    PrintsValue (.array child) := by
  intro depth fmt
  obtain ⟨hlow, hcount, hhigh⟩ := lenEntries_bounds child (depth + 1) fmt
  have hlength : (valueText (.array child) depth fmt).length =
      (entriesText child (depth + 1) fmt).length + 2 := by simp [valueText]
  rw [hlength, printValue]
  refine (prints_int fun h => by omega).bind id ?_
  rintro numentries ⟨rfl, -⟩
  split
  · rename_i hzero
    cases child with
    | nil => exact prints_place le_rfl (by decide)
    | cons => cases hzero
  · refine (prints_int fun h => by omega).bind id ?_
    rintro _ ⟨rfl, -⟩
    refine (hchild _ fmt 5 (by decide)).bind (fun h => by omega) ?_
    rintro ⟨entries, len⟩ ⟨hcompose, -, hsum, hlt⟩
    dsimp only at hcompose hsum hlt ⊢
    rw [hcompose]
    exact prints_place (t := valueText (.array child) depth fmt) (by omega) hlt

/-! ## Objects -/

theorem length_tabs (fmt : Bool) (depth : ℕ) :
    (tabs fmt depth).length = if fmt then depth else 0 := by
  cases fmt with
  | false => rfl
  | true => exact List.length_replicate

/-- What the entries of an object add to `len`, for `depth++`. -/
def lenMembers (child : Items D) (depth : ℕ) (fmt : Bool) : ℕ :=
  match child with
  | .nil => 0
  | .cons string item next =>
    (valueText item depth fmt).length + (stringText string).length + 2 +
      (if fmt then 2 + depth else 0) + lenMembers next depth fmt

/-- `len` for the entries of an object is their text, and a comma behind it. -/
theorem lenMembers_eq (child : Items D) (depth : ℕ) (fmt : Bool) :
    lenMembers child depth fmt =
      (membersText child depth fmt).length + if child.isNil then 0 else 1 := by
  cases child with
  | nil => rfl
  | cons string item next =>
    have ih := lenMembers_eq next depth fmt
    have hcomma : (comma next).length = if next.isNil then 0 else 1 := by
      cases next with
      | nil => rfl
      | cons => rfl
    have htabs := length_tabs fmt depth
    rw [membersText, lenMembers]
    simp only [List.length_append, List.length_cons, Items.isNil, Bool.false_eq_true, if_false]
    cases fmt with
    | false =>
      simp only [Bool.false_eq_true, if_false, List.length_nil] at htabs ⊢
      omega
    | true =>
      simp only [if_true, List.length_singleton] at htabs ⊢
      omega

theorem length_le_lenMembers (child : Items D) (depth : ℕ) (fmt : Bool) :
    child.length ≤ lenMembers child depth fmt := by
  cases child with
  | nil => exact le_rfl
  | cons string item next =>
    have ih := length_le_lenMembers next depth fmt
    rw [Items.length, lenMembers]
    omega

/-- What the first loop of `print_object` leaves. -/
structure MembersPrinted (child : Items D) (depth : ℕ) (fmt : Bool) (len : ℕ)
    (p : List (Text × Text) × ℕ) : Prop where
  text : composeMembers fmt depth p.1 = membersText child depth fmt
  isEmpty : p.1.isEmpty = child.isNil
  len_eq : p.2 = len + lenMembers child depth fmt
  len_lt : p.2 < 2 ^ 31

/-- The first loop of `print_object` on the children. -/
def PrintsMembers (child : Items D) : Prop :=
  ∀ depth fmt len, len < 2 ^ 31 →
    Prints (len + lenMembers child depth fmt < 2 ^ 31 ∧
        depth + (membersText child depth fmt).length ≤ 10 ^ 9)
      (MembersPrinted child depth fmt len) (printMembers child depth fmt len)

theorem printsMembers_cons {string : Option Text} {item : Item D} {next : Items D}
    (hitem : PrintsValue item) (hnext : PrintsMembers next) :
    PrintsMembers (.cons string item next) := by
  intro depth fmt len hlen
  have hlength : (stringText string).length + 1 + (valueText item depth fmt).length +
      (membersText next depth fmt).length ≤
        (membersText (.cons string item next) depth fmt).length := by
    simp only [membersText, List.length_append, List.length_cons]
    omega
  rw [printMembers, lenMembers]
  refine (prints_string string).bind (fun h => by omega) ?_
  rintro str ⟨rfl, -⟩
  refine (hitem depth fmt).bind (fun h => by omega) ?_
  rintro ret ⟨rfl, -⟩
  refine (prints_int fun h => by omega).bind id ?_
  rintro len' ⟨rfl, hlen'⟩
  refine (hnext depth fmt _ hlen').bind (fun h => by omega) ?_
  rintro ⟨members, len'⟩ ⟨hcompose, hempty, hsum, hlt⟩
  refine ⟨?_, rfl, ?_, hlt⟩
  · dsimp only at hempty hcompose
    rw [composeMembers, hempty, hcompose]
    cases next <;> rfl
  · rw [hsum, lenMembers]
    omega

/-- `print_object` without children. -/
theorem printsValue_empty : PrintsValue (D := D) (.object .nil) := by
  intro depth fmt
  cases fmt with
  | false => exact prints_place (t := ['{', '}']) le_rfl (by decide)
  | true =>
    have hlength : (valueText (D := D) (.object .nil) depth true).length = depth - 1 + 3 := by
      simp [valueText, Items.isNil, length_tabs]
    rw [hlength, printValue]
    refine (prints_int fun _ => show 0 < 2 ^ 31 by decide).bind id ?_
    rintro numentries ⟨rfl, -⟩
    rw [if_pos rfl, if_pos rfl]
    refine (prints_int fun h => by omega).bind id ?_
    rintro size ⟨rfl, hsize⟩
    exact prints_place (t := valueText (D := D) (.object .nil) depth true) (by omega) hsize

/-- `print_object`, where the first loop does what it should. -/
theorem printsValue_object {child : Items D} (hchild : PrintsMembers child) :
    PrintsValue (.object child) := by
  intro depth fmt
  cases hnil : child.isNil with
  | true =>
    cases child with
    | nil => exact printsValue_empty depth fmt
    | cons => cases hnil
  | false =>
    have hlen := lenMembers_eq child (depth + 1) fmt
    have hcount := length_le_lenMembers child (depth + 1) fmt
    have hne : child.length ≠ 0 := by
      cases child with
      | nil => cases hnil
      | cons => exact Nat.succ_ne_zero _
    have hlength : (valueText (.object child) depth fmt).length =
        (membersText child (depth + 1) fmt).length + 2 + if fmt then depth + 1 else 0 := by
      cases fmt with
      | false => simp [valueText, hnil, tabs]
      | true =>
        simp [valueText, hnil, length_tabs]
        omega
    rw [hnil, if_neg Bool.false_ne_true] at hlen
    rw [hlength, printValue]
    refine (prints_int fun h => by omega).bind id ?_
    rintro numentries ⟨rfl, -⟩
    rw [if_neg hne]
    refine (prints_int fun h => by omega).bind id ?_
    rintro _ ⟨rfl, -⟩
    refine (prints_int fun h => by omega).bind id ?_
    rintro _ ⟨rfl, hseven⟩
    refine (hchild _ fmt _ hseven).bind (fun h => by omega) ?_
    rintro ⟨members, len⟩ ⟨hcompose, -, hsum, hlt⟩
    dsimp only at hcompose hsum hlt ⊢
    have htext : '{' :: ((if fmt then ['\n'] else []) ++
        composeMembers fmt (depth + 1) members ++ tabs fmt (depth + 1 - 1) ++ ['}']) =
        valueText (.object child) depth fmt := by
      rw [hcompose, valueText, hnil, if_neg Bool.false_ne_true]
      rfl
    rw [htext]
    exact prints_place (by omega) hlt

/-! ## Items -/

-- by recursion on the item, as `print_value` goes
mutual

theorem prints_value (item : Item D) (h : item.Numbers Fitting) : PrintsValue item := by
  cases item with
  | null => exact fun _ _ => prints_place (t := nullText) le_rfl (by decide)
  | false => exact fun _ _ => prints_place (t := falseText) le_rfl (by decide)
  | true => exact fun _ _ => prints_place (t := trueText) le_rfl (by decide)
  | number valueint valuedouble => exact fun _ _ => prints_number h
  | string valuestring =>
    intro depth fmt
    have hstring := prints_string valuestring
    exact hstring.mono fun h => by
      rw [valueText] at h
      omega
  | array child => exact printsValue_array (prints_entries child h)
  | object child => exact printsValue_object (prints_members child h)

theorem prints_entries (child : Items D) (h : child.Numbers Fitting) : PrintsEntries child := by
  cases child with
  | nil => exact fun depth fmt len hlen => ⟨rfl, rfl, rfl, hlen⟩
  | cons string item next =>
    exact printsEntries_cons (prints_value item h.1) (prints_entries next h.2)

theorem prints_members (child : Items D) (h : child.Numbers Fitting) : PrintsMembers child := by
  cases child with
  | nil => exact fun depth fmt len hlen => ⟨rfl, rfl, rfl, hlen⟩
  | cons string item next =>
    exact printsMembers_cons (prints_value item h.1) (prints_members next h.2)

end

/-- What a printer gives is the text, and an `int` can measure it. -/
theorem printValue_ok {item : Item D} {depth : ℕ} {fmt : Bool} {t : Text}
    (h : item.Numbers Fitting) (hprint : printValue item depth fmt = .ok t) :
    Written (valueText item depth fmt) t := by
  have hprints := prints_value item h depth fmt
  rw [hprint] at hprints
  exact hprints

/-- **No printer writes behind what it has allocated**, whatever the item, the depth and the format:
it gives the text, or its `int` leaves its range, for which the depth and the text have to be more
than `10 ^ 9` together. -/
theorem printValue_fits (item : Item D) (depth : ℕ) (fmt : Bool) (h : item.Numbers Printable) :
    (printValue item depth fmt = .ok (valueText item depth fmt) ∨
      printValue item depth fmt = .error (.fault .overflow)) ∧
    (depth + (valueText item depth fmt).length ≤ 10 ^ 9 →
      printValue item depth fmt = .ok (valueText item depth fmt)) := by
  have hprints := prints_value item (Item.Numbers.mono (fun _ _ h => h.fitting) item h) depth fmt
  match hresult : printValue item depth fmt with
  | .ok t =>
    rw [hresult] at hprints
    obtain ⟨rfl, -⟩ := hprints
    exact ⟨Or.inl rfl, fun _ => rfl⟩
  | .error e =>
    rw [hresult] at hprints
    obtain ⟨rfl, hshort⟩ := hprints
    exact ⟨Or.inr rfl, fun henough => absurd henough hshort⟩

/-- `{"\t": [1e10]}`, with what the conversion to an `int` gives for it on most machines -/
def large : Item ℚ :=
  .object (.cons (some ['\t']) (.array (.cons none (.number (-2 ^ 31) 10000000000) .nil)) .nil)

theorem printValue_fits_large : printValue large 0 true = .ok (valueText large 0 true) := by
  have hfloor : ⌊(10000000000 : ℚ)⌋ = 10000000000 := by norm_num
  have hlen : ∀ format, (Double.sprintf format (10000000000 : ℚ)).length ≤ 11 := by
    intro format
    rw [show Double.sprintf format (10000000000 : ℚ) = printInt ⌊(10000000000 : ℚ)⌋ from rfl, hfloor]
    decide
  have hshort : Short (10000000000 : ℚ) :=
    ⟨fun _ => (hlen _).trans (by decide), (hlen _).trans (by decide),
      fun _ => (hlen _).trans (by decide)⟩
  have hnumbers : large.Numbers Printable := ⟨⟨⟨⟨by decide, by decide⟩, hshort⟩, trivial⟩, trivial⟩
  exact (printValue_fits large 0 true hnumbers).2 (by decide +kernel)

end Wish.CJson
