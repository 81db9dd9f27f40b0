import Wish.Memory.CJson.Strings

/-!
# The texts that are parsed

`memory/face++_pro/parseJson/cJSON.c`: `Json` is the grammar of a JSON text, with what it stands
for: white space wherever it is allowed, strings in any spelling, and the numbers of an `int`.
`parse_json`: `parse_value` reads every such text that an `int` can measure, and leaves what follows
it. The recursion of the parser is given by steps; two for each character are enough.
-/

namespace Wish.CJson

variable {D : Type} [Double D] {c : Char} {s t rest : Text}

/-! ## Numbers -/

/-- A number does not go on at the beginning of the text. -/
def Stops (rest : Text) : Prop :=
  ∀ c r, rest = c :: r → c.isDigit = false ∧ c ≠ '.' ∧ c ≠ 'e' ∧ c ≠ 'E'

theorem digit_lt (h : c.isDigit = true) : 0 ≤ digit c ∧ digit c < 10 := by
  simp only [Char.isDigit, Bool.and_eq_true, decide_eq_true_eq] at h
  have h1 : 48 ≤ c.toNat := h.1
  have h2 : c.toNat ≤ 57 := h.2
  unfold digit
  omega

theorem le_ofDigitChars (ds : Text) (n : ℕ) : n ≤ Nat.ofDigitChars 10 ds n := by
  induction ds generalizing n with
  | nil => exact Nat.ofDigitChars_nil.ge
  | cons c ds ih =>
    rw [Nat.ofDigitChars_cons]
    have hle := ih (10 * n + (c.toNat - '0'.toNat))
    omega

/-- The digits are read one after the other, as far as a `double` is exact. -/
theorem readDigits_eq {ds : Text} (hds : ∀ c ∈ ds, c.isDigit = true)
    (hrest : ∀ c r, rest = c :: r → c.isDigit = false) (n : ℕ) (scale : D)
    (hlt : Nat.ofDigitChars 10 ds n < 2 ^ 53) :
    readDigits id (Double.ofInt n, scale) (ds ++ rest) =
      ((Double.ofInt (Nat.ofDigitChars 10 ds n : ℕ), scale), rest) := by
  induction ds generalizing n with
  | nil =>
    cases rest with
    | nil => rfl
    | cons c r => simp [readDigits, hrest c r rfl]
  | cons c ds ih =>
    have hc := hds c List.mem_cons_self
    obtain ⟨hpos, hten⟩ := digit_lt hc
    rw [Nat.ofDigitChars_cons] at hlt ⊢
    have hle := le_ofDigitChars ds (10 * n + (c.toNat - '0'.toNat))
    have hdigit : digit c = ((c.toNat - '0'.toNat : ℕ) : ℤ) := by
      have hzero : '0'.toNat = 48 := rfl
      unfold digit at hpos ⊢
      omega
    have hacc : Double.add (Double.mul (Double.ofInt (D := D) n) (Double.ofInt 10))
        (Double.ofInt (digit c)) =
        Double.ofInt ((10 * n + (c.toNat - '0'.toNat) : ℕ) : ℤ) := by
      rw [Double.mul_ofInt _ _ (Or.inl (by omega)) (by omega), hdigit,
        Double.add_ofInt _ _ (by omega) (by omega) (by omega)]
      congr 1
      push_cast
      ring
    rw [List.cons_append, readDigits, if_pos hc, hacc]
    exact ih (fun c h => hds c (List.mem_cons_of_mem _ h)) _ hlt

/-- A positive number does not begin with a zero. -/
theorem toDigits_head {n : ℕ} (h : 0 < n) : ∃ c ds, Nat.toDigits 10 n = c :: ds ∧ c ≠ '0' := by
  induction n using Nat.strong_induction_on with
  | _ n ih =>
    by_cases hlt : n < 10
    · refine ⟨n.digitChar, [], Nat.toDigits_of_lt_base hlt, ?_⟩
      interval_cases n <;> decide
    · obtain ⟨c, ds, hds, hc⟩ := ih (n / 10) (by omega) (by omega)
      refine ⟨c, ds ++ [(n % 10).digitChar], ?_, hc⟩
      rw [Nat.toDigits_of_base_le (by decide) (Nat.le_of_not_lt hlt), hds, List.cons_append]

theorem isDigit_toDigits {n : ℕ} (h : c ∈ Nat.toDigits 10 n) : c.isDigit = true :=
  Nat.isDigit_of_mem_toDigits (by decide) le_rfl h

theorem Stops.head {r : Text} (h : Stops (c :: r)) : c.isDigit = false := (h c r rfl).1

/-- What is read before the point, for the digits of a number. -/
theorem readWhole_toDigits {n : ℕ} (hn : n < 2 ^ 53) (hrest : Stops rest) :
    readWhole (D := D) (readZero (Nat.toDigits 10 n ++ rest)) =
      ((Double.ofInt (n : ℤ), Double.ofInt 0), rest) := by
  rcases Nat.eq_zero_or_pos n with rfl | hpos
  · cases rest with
    | nil => rfl
    | cons c r =>
      have hc := hrest.head
      simp [Nat.toDigits_zero, readZero, readWhole, hc]
  · obtain ⟨c, ds, hds, hc⟩ := toDigits_head hpos
    have hdigit : c.isDigit = true := isDigit_toDigits (hds ▸ List.mem_cons_self)
    have hzero : readZero (c :: (ds ++ rest)) = c :: (ds ++ rest) := by
      unfold readZero
      split
      · rename_i heq
        cases heq
        exact absurd rfl hc
      · rfl
    have hvalue : Nat.ofDigitChars 10 (c :: ds) 0 = n := by
      rw [← hds]
      exact Nat.ofDigitChars_ten_toDigits
    have hall : ∀ d ∈ c :: ds, d.isDigit = true := fun d h => isDigit_toDigits (hds ▸ h)
    have hread := readDigits_eq (D := D) hall (fun c r h => (hrest c r h).1) 0 (Double.ofInt 0)
      (by rw [hvalue]; exact hn)
    rw [hvalue] at hread
    rw [hds, List.cons_append, hzero, readWhole, if_pos (by simp [hdigit, hc])]
    exact hread

theorem readFraction_stops (hrest : Stops rest) (acc : D × D) :
    readFraction acc rest = (acc, rest) := by
  unfold readFraction
  split
  · exact absurd rfl (hrest _ _ rfl).2.1
  · rfl

theorem readExponent_stops (hrest : Stops rest) : readExponent rest = .ok (0, rest) := by
  cases rest with
  | nil => rfl
  | cons c r =>
    obtain ⟨-, -, he, hE⟩ := hrest c r rfl
    simp [readExponent, he, hE]

/-- What comes out for the sign and the digits of a number. -/
theorem parseNumber_digits {num : Text} {sign : ℤ} {n : ℕ} (hn : n < 2 ^ 53)
    (hsign : readSign num = (sign, Nat.toDigits 10 n ++ rest)) (hrest : Stops rest)
    (hone : sign = 1 ∨ sign = -1 ∧ n ≠ 0) (hint : -2 ^ 31 ≤ sign * n ∧ sign * n < 2 ^ 31) :
    parseNumber (D := D) num = .ok (.number (sign * n) (Double.ofInt (sign * n)), rest) := by
  have hmul : Double.mul (Double.ofInt (D := D) sign) (Double.ofInt n) =
      Double.ofInt (sign * n) := by
    refine Double.mul_ofInt _ _ ?_ (by omega)
    rcases hone with rfl | ⟨rfl, h⟩
    · exact Or.inl (by omega)
    · exact Or.inr (by omega)
  have hscale : Double.mul (Double.ofInt (D := D) (sign * n)) (Double.ofInt 1) =
      Double.ofInt (sign * n) := by
    have h := Double.mul_ofInt (D := D) (sign * n) 1 ?_ (by omega)
    · rw [h, mul_one]
    · rw [mul_one]
      rcases hone with rfl | ⟨rfl, h⟩
      · exact Or.inl (by omega)
      · exact Or.inr (by omega)
  have hadd : Double.add (Double.ofInt (D := D) 0) (Double.ofInt 0) = Double.ofInt 0 :=
    Double.add_ofInt 0 0 le_rfl le_rfl (by decide)
  simp only [parseNumber, hsign, readWhole_toDigits hn hrest, readFraction_stops hrest,
    readExponent_stops hrest, bind, Except.bind, hadd, Double.pow_zero, hmul, hscale,
    Double.toInt_ofInt _ hint.1 hint.2]
  rfl

theorem parseNumber_printInt {i : ℤ} (hlow : -2 ^ 31 ≤ i) (hhigh : i < 2 ^ 31)
    (hrest : Stops rest) :
    parseNumber (D := D) (printInt i ++ rest) = .ok (.number i (Double.ofInt i), rest) := by
  unfold printInt
  split
  · rename_i hneg
    have hi : (-1 : ℤ) * i.natAbs = i := by omega
    have hsign : readSign ('-' :: (Nat.toDigits 10 i.natAbs ++ rest)) =
        (-1, Nat.toDigits 10 i.natAbs ++ rest) := rfl
    have hnum := parseNumber_digits (D := D) (by omega) hsign hrest (Or.inr ⟨rfl, by omega⟩)
      (by omega)
    rw [hi] at hnum
    exact hnum
  · rename_i hpos
    have hi : (1 : ℤ) * i.natAbs = i := by omega
    have hsign : readSign (Nat.toDigits 10 i.natAbs ++ rest) =
        (1, Nat.toDigits 10 i.natAbs ++ rest) := by
      unfold readSign
      split
      · rename_i num heq
        cases hds : Nat.toDigits 10 i.natAbs with
        | nil => exact absurd hds Nat.toDigits_ne_nil
        | cons c ds =>
          have hdigit : c.isDigit = true := isDigit_toDigits (hds ▸ List.mem_cons_self)
          rw [hds, List.cons_append] at heq
          cases heq
          cases hdigit
      · rfl
    have hnum := parseNumber_digits (D := D) (by omega) hsign hrest (Or.inl rfl) (by omega)
    rw [hi] at hnum
    exact hnum

/-! ## White space -/

/-- White space, which is what `skip` goes over. -/
def White (w : Text) : Prop := ∀ c ∈ w, c.toNat ≤ 32

theorem skip_cons (h : 32 < c.toNat) (t : Text) : skip (c :: t) = c :: t :=
  List.dropWhile_cons_of_neg (by simpa using h)

theorem skip_space (h : c.toNat ≤ 32) (t : Text) : skip (c :: t) = skip t :=
  List.dropWhile_cons_of_pos (by simpa using h)

@[simp]
theorem skip_skip (t : Text) : skip (skip t) = skip t := by
  induction t with
  | nil => rfl
  | cons c t ih =>
    by_cases hc : c.toNat ≤ 32
    · rw [skip_space hc, ih]
    · rw [skip_cons (Nat.lt_of_not_le hc), skip_cons (Nat.lt_of_not_le hc)]

theorem skip_white {w : Text} (h : White w) (t : Text) : skip (w ++ t) = skip t := by
  induction w with
  | nil => rfl
  | cons c w ih =>
    rw [List.cons_append, skip_space (h c List.mem_cons_self)]
    exact ih fun c hc => h c (List.mem_cons_of_mem _ hc)

theorem White.append {w w' : Text} (h : White w) (h' : White w') : White (w ++ w') := by
  intro c hc
  exact (List.mem_append.mp hc).elim (h c) (h' c)

theorem White.nil : White [] := fun _ hc => absurd hc List.not_mem_nil

theorem stops_cons (hd : c.isDigit = false) (hpoint : c ≠ '.') (he : c ≠ 'e') (hE : c ≠ 'E')
    (t : Text) : Stops (c :: t) := by
  rintro c r ⟨⟩
  exact ⟨hd, hpoint, he, hE⟩

/-- White space does not go on with a number. -/
theorem stops_of_skip {t : Text} (h : Stops (skip t)) : Stops t := by
  cases t with
  | nil => exact h
  | cons c t =>
    by_cases hc : c.toNat ≤ 32
    · refine stops_cons ?_ ?_ ?_ ?_ t
      · by_contra hdigit
        rw [Bool.not_eq_false, Char.isDigit, Bool.and_eq_true, decide_eq_true_eq] at hdigit
        have hle : 48 ≤ c.toNat := hdigit.1
        omega
      all_goals
        rintro rfl
        exact absurd hc (by decide)
    · rwa [skip_cons (Nat.lt_of_not_le hc)] at h

/-- A comma does not go on with a number, nor does the end of an array or an object. -/
theorem stops_separator (h : c = ',' ∨ c = ']' ∨ c = '}') (t : Text) : Stops (c :: t) := by
  rcases h with rfl | rfl | rfl
  all_goals exact stops_cons rfl (by decide) (by decide) (by decide) t

/-! ## The grammar -/

mutual

/-- A value and what it stands for, with the white space that `W` allows. -/
inductive Json (W : Text → Prop) : Text → Item D → Prop
  | null : Json W nullText .null
  | false : Json W falseText .false
  | true : Json W trueText .true
  | number (i : ℤ) (hlow : -2 ^ 31 ≤ i) (hhigh : i < 2 ^ 31) :
    Json W (printInt i) (.number i (Double.ofInt i))
  | string {t v : Text} (h : Spells t v) : Json W ('"' :: (t ++ ['"'])) (.string (some v))
  | noEntries {w : Text} (h : W w) : Json W ('[' :: (w ++ [']'])) (.array .nil)
  | entries {t : Text} {child : Items D} (h : Entries W t child) :
    Json W ('[' :: (t ++ [']'])) (.array child)
  | noMembers {w : Text} (h : W w) : Json W ('{' :: (w ++ ['}'])) (.object .nil)
  | members {t : Text} {child : Items D} (h : Members W t child) :
    Json W ('{' :: (t ++ ['}'])) (.object child)

/-- Values with commas between them. -/
inductive Entries (W : Text → Prop) : Text → Items D → Prop
  | last {w t w' : Text} {item : Item D} (hw : W w) (h : Json W t item) (hw' : W w') :
    Entries W (w ++ (t ++ w')) (.cons none item .nil)
  | cons {w t w' u : Text} {item : Item D} {next : Items D} (hw : W w) (h : Json W t item)
    (hw' : W w') (hnext : Entries W u next) :
    Entries W (w ++ (t ++ (w' ++ ',' :: u))) (.cons none item next)

/-- Values with their names, and with commas between them. -/
inductive Members (W : Text → Prop) : Text → Items D → Prop
  | last {w n v w₁ w₂ t w' : Text} {item : Item D} (hw : W w) (hn : Spells n v) (hw₁ : W w₁)
    (hw₂ : W w₂) (h : Json W t item) (hw' : W w') :
    Members W (w ++ '"' :: (n ++ '"' :: (w₁ ++ ':' :: (w₂ ++ (t ++ w')))))
      (.cons (some v) item .nil)
  | cons {w n v w₁ w₂ t w' u : Text} {item : Item D} {next : Items D} (hw : W w)
    (hn : Spells n v) (hw₁ : W w₁) (hw₂ : W w₂) (h : Json W t item) (hw' : W w')
    (hnext : Members W u next) :
    Members W (w ++ '"' :: (n ++ '"' :: (w₁ ++ ':' :: (w₂ ++ (t ++ (w' ++ ',' :: u))))))
      (.cons (some v) item next)

end

theorem parseEntries_skip (steps : ℕ) (value : Text) :
    parseEntries (D := D) steps (skip value) = parseEntries steps value := by
  cases steps with
  | zero => rw [parseEntries, parseEntries]
  | succ steps => rw [parseEntries, parseEntries, skip_skip]

theorem parseMembers_skip (steps : ℕ) (value : Text) :
    parseMembers (D := D) steps (skip value) = parseMembers steps value := by
  cases steps with
  | zero => rw [parseMembers, parseMembers]
  | succ steps => rw [parseMembers, parseMembers, skip_skip]

/-- A value that is no word. -/
theorem parseValue_cons (hn : c ≠ 'n') (hf : c ≠ 'f') (ht : c ≠ 't') (steps : ℕ) (t : Text) :
    parseValue (D := D) (steps + 1) (c :: t) =
      if c = '"' then do
        let (valuestring, value) ← parseString (c :: t)
        return (.string (some valuestring), value)
      else if c = '-' || c.isDigit then parseNumber (c :: t)
      else if c = '[' then parseArray steps (c :: t)
      else if c = '{' then parseObject steps (c :: t)
      else .error (.malformed (c :: t)) := by
  simp [parseValue, nullText, falseText, trueText, List.isPrefixOf, Ne.symm hn, Ne.symm hf,
    Ne.symm ht]

theorem parseArray_cons {value t : Text} (hskip : skip value = c :: t) (hc : c ≠ ']')
    (steps : ℕ) :
    parseArray (D := D) (steps + 1) ('[' :: value) = do
      let (child, value) ← parseEntries steps value
      return (.array child, value) := by
  rw [← parseEntries_skip steps value, parseArray, hskip]
  split
  · rename_i heq
    cases heq
    exact absurd rfl hc
  · rfl

theorem parseObject_cons {value t : Text} (hskip : skip value = c :: t) (hc : c ≠ '}')
    (steps : ℕ) :
    parseObject (D := D) (steps + 1) ('{' :: value) = do
      let (child, value) ← parseMembers steps value
      return (.object child, value) := by
  rw [← parseMembers_skip steps value, parseObject, hskip]
  split
  · rename_i heq
    cases heq
    exact absurd rfl hc
  · rfl

/-! ## Heads -/

theorem printInt_head (i : ℤ) : ∃ c t, printInt i = c :: t ∧ (c = '-' || c.isDigit) = true := by
  unfold printInt
  split
  · exact ⟨'-', _, rfl, rfl⟩
  · cases hds : Nat.toDigits 10 i.natAbs with
    | nil => exact absurd hds Nat.toDigits_ne_nil
    | cons c ds =>
      have hdigit : c.isDigit = true := isDigit_toDigits (hds ▸ List.mem_cons_self)
      exact ⟨c, ds, rfl, by rw [hdigit, Bool.or_true]⟩

/-- How a value begins. -/
theorem Json.head {item : Item D} (h : Json White t item) :
    ∃ c r, t = c :: r ∧ 32 < c.toNat ∧ c ≠ ']' := by
  cases h with
  | null => exact ⟨'n', _, rfl, by decide, by decide⟩
  | false => exact ⟨'f', _, rfl, by decide, by decide⟩
  | true => exact ⟨'t', _, rfl, by decide, by decide⟩
  | number i =>
    obtain ⟨c, r, heq, hc⟩ := printInt_head i
    refine ⟨c, r, heq, ?_, ?_⟩
    · rw [Bool.or_eq_true, decide_eq_true_eq, Char.isDigit, Bool.and_eq_true,
        decide_eq_true_eq] at hc
      rcases hc with rfl | ⟨hc, -⟩
      · decide
      · have hle : 48 ≤ c.toNat := hc
        omega
    · rintro rfl
      cases hc
  | string => exact ⟨'"', _, rfl, by decide, by decide⟩
  | noEntries => exact ⟨'[', _, rfl, by decide, by decide⟩
  | entries => exact ⟨'[', _, rfl, by decide, by decide⟩
  | noMembers => exact ⟨'{', _, rfl, by decide, by decide⟩
  | members => exact ⟨'{', _, rfl, by decide, by decide⟩

theorem Json.skip {item : Item D} (h : Json White t item) (rest : Text) :
    CJson.skip (t ++ rest) = t ++ rest := by
  obtain ⟨c, r, rfl, hc, -⟩ := h.head
  exact skip_cons hc _

/-- How the values of an array begin, behind the white space. -/
theorem Entries.head {child : Items D} (h : Entries White t child) (rest : Text) :
    ∃ c r, skip (t ++ rest) = c :: r ∧ c ≠ ']' := by
  cases h with
  | last hw h hw' =>
    obtain ⟨c, r, rfl, hc, hne⟩ := h.head
    exact ⟨c, _, by rw [List.append_assoc, skip_white hw]; exact skip_cons hc _, hne⟩
  | cons hw h hw' hnext =>
    obtain ⟨c, r, rfl, hc, hne⟩ := h.head
    exact ⟨c, _, by rw [List.append_assoc, skip_white hw]; exact skip_cons hc _, hne⟩

theorem Members.head {child : Items D} (h : Members White t child) (rest : Text) :
    ∃ r, skip (t ++ rest) = '"' :: r := by
  cases h with
  | last hw =>
    exact ⟨_, by rw [List.append_assoc, skip_white hw]; exact skip_cons (by decide) _⟩
  | cons hw =>
    exact ⟨_, by rw [List.append_assoc, skip_white hw]; exact skip_cons (by decide) _⟩

/-! ## The parser on the grammar -/

/-- With steps enough, `t` is parsed as the item, if it is not too long. -/
def Parses (t : Text) (item : Item D) : Prop :=
  ∀ rest steps, Stops rest → t.length < 2 ^ 31 → 2 * t.length + 1 ≤ steps →
    parseValue steps (t ++ rest) = .ok (item, rest)

/-- With steps enough, `t` is parsed as the children of an array. -/
def ParsesEntries (t : Text) (child : Items D) : Prop :=
  ∀ rest steps, t.length < 2 ^ 31 → 2 * t.length + 2 ≤ steps →
    parseEntries steps (t ++ ']' :: rest) = .ok (child, rest)

/-- With steps enough, `t` is parsed as the children of an object. -/
def ParsesMembers (t : Text) (child : Items D) : Prop :=
  ∀ rest steps, t.length < 2 ^ 31 → 2 * t.length + 2 ≤ steps →
    parseMembers steps (t ++ '}' :: rest) = .ok (child, rest)

/-- `parse_value` at a bracket. -/
theorem parseValue_bracket (steps : ℕ) (t : Text) :
    parseValue (D := D) (steps + 1) ('[' :: t) = parseArray steps ('[' :: t) := by
  rw [parseValue_cons (by decide) (by decide) (by decide), if_neg (by decide), if_neg (by decide),
    if_pos rfl]

/-- `parse_value` at a brace. -/
theorem parseValue_brace (steps : ℕ) (t : Text) :
    parseValue (D := D) (steps + 1) ('{' :: t) = parseObject steps ('{' :: t) := by
  rw [parseValue_cons (by decide) (by decide) (by decide), if_neg (by decide), if_neg (by decide),
    if_neg (by decide), if_pos rfl]

theorem parses_number {i : ℤ} (hlow : -2 ^ 31 ≤ i) (hhigh : i < 2 ^ 31) :
    Parses (D := D) (printInt i) (.number i (Double.ofInt i)) := by
  intro rest steps hrest _ hsteps
  obtain ⟨steps, rfl⟩ := Nat.exists_eq_add_of_le' (show 1 ≤ steps by omega)
  have hnumber := parseNumber_printInt (D := D) hlow hhigh hrest
  obtain ⟨c, t, heq, hc⟩ := printInt_head i
  rw [heq, List.cons_append] at hnumber ⊢
  have hne : c ≠ 'n' ∧ c ≠ 'f' ∧ c ≠ 't' ∧ c ≠ '"' := by
    refine ⟨?_, ?_, ?_, ?_⟩
    all_goals
      rintro rfl
      cases hc
  rw [parseValue_cons hne.1 hne.2.1 hne.2.2.1, if_neg hne.2.2.2, if_pos hc, hnumber]

theorem parses_string {v : Text} (h : Spells t v) :
    Parses (D := D) ('"' :: (t ++ ['"'])) (.string (some v)) := by
  intro rest steps _ hlen hsteps
  obtain ⟨steps, rfl⟩ := Nat.exists_eq_add_of_le' (show 1 ≤ steps by omega)
  rw [List.length_cons, List.length_append, List.length_singleton] at hlen
  rw [List.cons_append, List.append_assoc, List.singleton_append,
    parseValue_cons (by decide) (by decide) (by decide), if_pos rfl,
    parseString_spells h _ (by omega)]
  rfl

theorem parses_noEntries {w : Text} (hw : White w) :
    Parses (D := D) ('[' :: (w ++ [']'])) (.array .nil) := by
  intro rest steps _ hlen hsteps
  simp only [List.length_cons, List.length_append] at hlen hsteps
  obtain ⟨steps, rfl⟩ := Nat.exists_eq_add_of_le' (show 2 ≤ steps by omega)
  have hskip : skip (w ++ ']' :: rest) = ']' :: rest := by
    rw [skip_white hw, skip_cons (by decide)]
  rw [List.cons_append, List.append_assoc, List.singleton_append, parseValue_bracket, parseArray,
    hskip]
  rfl

theorem parses_noMembers {w : Text} (hw : White w) :
    Parses (D := D) ('{' :: (w ++ ['}'])) (.object .nil) := by
  intro rest steps _ hlen hsteps
  simp only [List.length_cons, List.length_append] at hlen hsteps
  obtain ⟨steps, rfl⟩ := Nat.exists_eq_add_of_le' (show 2 ≤ steps by omega)
  have hskip : skip (w ++ '}' :: rest) = '}' :: rest := by
    rw [skip_white hw, skip_cons (by decide)]
  rw [List.cons_append, List.append_assoc, List.singleton_append, parseValue_brace, parseObject,
    hskip]
  rfl

theorem parses_entries {child : Items D} (h : Entries White t child) (hchild : ParsesEntries t child) :
    Parses ('[' :: (t ++ [']'])) (.array child) := by
  intro rest steps _ hlen hsteps
  simp only [List.length_cons, List.length_append] at hlen hsteps
  obtain ⟨steps, rfl⟩ := Nat.exists_eq_add_of_le' (show 2 ≤ steps by omega)
  obtain ⟨c, r, hskip, hc⟩ := h.head (']' :: rest)
  rw [List.cons_append, List.append_assoc, List.singleton_append, parseValue_bracket,
    parseArray_cons hskip hc, hchild rest steps (by omega) (by omega)]
  rfl

theorem parses_members {child : Items D} (h : Members White t child) (hchild : ParsesMembers t child) :
    Parses ('{' :: (t ++ ['}'])) (.object child) := by
  intro rest steps _ hlen hsteps
  simp only [List.length_cons, List.length_append] at hlen hsteps
  obtain ⟨steps, rfl⟩ := Nat.exists_eq_add_of_le' (show 2 ≤ steps by omega)
  obtain ⟨r, hskip⟩ := h.head ('}' :: rest)
  rw [List.cons_append, List.append_assoc, List.singleton_append, parseValue_brace,
    parseObject_cons hskip (by decide), hchild rest steps (by omega) (by omega)]
  rfl

/-- The value of an entry, with the white space around it. -/
theorem parseValue_white {w w' u : Text} {item : Item D} {steps : ℕ} (h : Json White t item)
    (hitem : Parses t item) (hw : White w) (hw' : White w') (hc : c = ',' ∨ c = ']' ∨ c = '}')
    (hlen : t.length < 2 ^ 31) (hsteps : 2 * t.length + 1 ≤ steps) :
    ∃ rest, parseValue steps (skip (w ++ (t ++ (w' ++ c :: u)))) = .ok (item, rest) ∧
      skip rest = c :: u := by
  have hlow : 32 < c.toNat := by
    rcases hc with rfl | rfl | rfl
    all_goals decide
  have hskip : skip (w' ++ c :: u) = c :: u := by
    rw [skip_white hw', skip_cons hlow]
  have hstops : Stops (w' ++ c :: u) := by
    apply stops_of_skip
    rw [hskip]
    exact stops_separator hc u
  refine ⟨w' ++ c :: u, ?_, hskip⟩
  rw [skip_white hw, h.skip, hitem _ steps hstops hlen hsteps]

theorem parsesEntries_last {w w' : Text} {item : Item D} (hw : White w) (h : Json White t item)
    (hw' : White w') (hitem : Parses t item) :
    ParsesEntries (w ++ (t ++ w')) (.cons none item .nil) := by
  intro rest steps hlen hsteps
  simp only [List.length_append] at hlen hsteps
  obtain ⟨steps, rfl⟩ := Nat.exists_eq_add_of_le' (show 1 ≤ steps by omega)
  obtain ⟨r, hvalue, hskip⟩ := parseValue_white (u := rest) (c := ']') h hitem hw hw' (by simp)
    (show t.length < 2 ^ 31 by omega) (show 2 * t.length + 1 ≤ steps by omega)
  simp only [List.append_assoc, parseEntries, hvalue, bind, Except.bind, hskip]
  rfl

theorem parsesEntries_cons {w w' u : Text} {item : Item D} {next : Items D} (hw : White w)
    (h : Json White t item) (hw' : White w') (hitem : Parses t item) (hnext : ParsesEntries u next) :
    ParsesEntries (w ++ (t ++ (w' ++ ',' :: u))) (.cons none item next) := by
  intro rest steps hlen hsteps
  simp only [List.length_append, List.length_cons] at hlen hsteps
  obtain ⟨steps, rfl⟩ := Nat.exists_eq_add_of_le' (show 1 ≤ steps by omega)
  obtain ⟨r, hvalue, hskip⟩ := parseValue_white (u := u ++ ']' :: rest) (c := ',') h hitem hw hw'
    (by simp) (show t.length < 2 ^ 31 by omega) (show 2 * t.length + 1 ≤ steps by omega)
  simp only [List.append_assoc, List.cons_append, parseEntries, hvalue, bind, Except.bind, hskip,
    hnext rest steps (by omega) (by omega)]
  rfl

/-- The name of a member, with the white space around it. -/
theorem parseString_white {w w' n v : Text} (hw : White w) (hn : Spells n v) (hw' : White w')
    (hlen : n.length + 1 < 2 ^ 31) (u : Text) :
    ∃ rest, parseString (skip (w ++ '"' :: (n ++ '"' :: (w' ++ ':' :: u)))) = .ok (v, rest) ∧
      skip rest = ':' :: u := by
  refine ⟨w' ++ ':' :: u, ?_, ?_⟩
  · rw [skip_white hw, skip_cons (by decide), parseString_spells hn _ hlen]
  · rw [skip_white hw', skip_cons (by decide)]

theorem parsesMembers_last {w n v w₁ w₂ w' : Text} {item : Item D} (hw : White w)
    (hn : Spells n v) (hw₁ : White w₁) (hw₂ : White w₂) (h : Json White t item) (hw' : White w')
    (hitem : Parses t item) :
    ParsesMembers (w ++ '"' :: (n ++ '"' :: (w₁ ++ ':' :: (w₂ ++ (t ++ w')))))
      (.cons (some v) item .nil) := by
  intro rest steps hlen hsteps
  simp only [List.length_append, List.length_cons] at hlen hsteps
  obtain ⟨steps, rfl⟩ := Nat.exists_eq_add_of_le' (show 1 ≤ steps by omega)
  obtain ⟨q, hname, hcolon⟩ := parseString_white hw hn hw₁ (by omega) (w₂ ++ (t ++ (w' ++ '}' :: rest)))
  obtain ⟨r, hvalue, hskip⟩ := parseValue_white (u := rest) (c := '}') h hitem hw₂ hw' (by simp)
    (show t.length < 2 ^ 31 by omega) (show 2 * t.length + 1 ≤ steps by omega)
  simp only [List.append_assoc, List.cons_append, parseMembers, hname, bind, Except.bind, hcolon,
    hvalue, hskip]
  rfl

theorem parsesMembers_cons {w n v w₁ w₂ w' u : Text} {item : Item D} {next : Items D}
    (hw : White w) (hn : Spells n v) (hw₁ : White w₁) (hw₂ : White w₂) (h : Json White t item)
    (hw' : White w') (hitem : Parses t item) (hnext : ParsesMembers u next) :
    ParsesMembers (w ++ '"' :: (n ++ '"' :: (w₁ ++ ':' :: (w₂ ++ (t ++ (w' ++ ',' :: u))))))
      (.cons (some v) item next) := by
  intro rest steps hlen hsteps
  simp only [List.length_append, List.length_cons] at hlen hsteps
  obtain ⟨steps, rfl⟩ := Nat.exists_eq_add_of_le' (show 1 ≤ steps by omega)
  obtain ⟨q, hname, hcolon⟩ := parseString_white hw hn hw₁ (by omega)
    (w₂ ++ (t ++ (w' ++ ',' :: (u ++ '}' :: rest))))
  obtain ⟨r, hvalue, hskip⟩ := parseValue_white (u := u ++ '}' :: rest) (c := ',') h hitem hw₂ hw'
    (by simp) (show t.length < 2 ^ 31 by omega) (show 2 * t.length + 1 ≤ steps by omega)
  simp only [List.append_assoc, List.cons_append, parseMembers, hname, bind, Except.bind, hcolon,
    hvalue, hskip, hnext rest steps (by omega) (by omega)]
  rfl

theorem parses_null : Parses (D := D) nullText .null := by
  intro rest steps _ _ hsteps
  obtain ⟨steps, rfl⟩ := Nat.exists_eq_add_of_le' (show 1 ≤ steps by omega)
  simp [parseValue, nullText]

theorem parses_false : Parses (D := D) falseText .false := by
  intro rest steps _ _ hsteps
  obtain ⟨steps, rfl⟩ := Nat.exists_eq_add_of_le' (show 1 ≤ steps by omega)
  simp [parseValue, nullText, falseText]

theorem parses_true : Parses (D := D) trueText .true := by
  intro rest steps _ _ hsteps
  obtain ⟨steps, rfl⟩ := Nat.exists_eq_add_of_le' (show 1 ≤ steps by omega)
  simp [parseValue, nullText, falseText, trueText]

-- by recursion on the item: a value is parsed once its children are
mutual

theorem Json.parses {t : Text} (item : Item D) (h : Json White t item) : Parses t item := by
  cases item with
  | null =>
    cases h
    exact parses_null
  | false =>
    cases h
    exact parses_false
  | true =>
    cases h
    exact parses_true
  | number valueint valuedouble =>
    cases h with
    | number _ hlow hhigh => exact parses_number hlow hhigh
  | string valuestring =>
    cases h with
    | string h => exact parses_string h
  | array child =>
    cases h with
    | noEntries hw => exact parses_noEntries hw
    | entries h => exact parses_entries h (Entries.parses child h)
  | object child =>
    cases h with
    | noMembers hw => exact parses_noMembers hw
    | members h => exact parses_members h (Members.parses child h)

theorem Entries.parses {t : Text} (child : Items D) (h : Entries White t child) :
    ParsesEntries t child := by
  cases child with
  | nil => cases h
  | cons string item next =>
    cases h with
    | last hw h hw' => exact parsesEntries_last hw h hw' (Json.parses item h)
    | cons hw h hw' hnext =>
      exact parsesEntries_cons hw h hw' (Json.parses item h) (Entries.parses next hnext)

theorem Members.parses {t : Text} (child : Items D) (h : Members White t child) :
    ParsesMembers t child := by
  cases child with
  | nil => cases h
  | cons string item next =>
    cases h with
    | last hw hn hw₁ hw₂ h hw' => exact parsesMembers_last hw hn hw₁ hw₂ h hw' (Json.parses item h)
    | cons hw hn hw₁ hw₂ h hw' hnext =>
      exact parsesMembers_cons hw hn hw₁ hw₂ h hw' (Json.parses item h) (Members.parses next hnext)

end

/-- The root, behind white space. -/
theorem parseValue_root {item : Item D} (h : Json White t item) (hlen : t.length < 2 ^ 31)
    {w : Text} (hw : White w) (hrest : Stops rest) :
    parseValue (3 * (w ++ (t ++ rest)).length + 2) (skip (w ++ (t ++ rest))) =
      .ok (item, rest) := by
  have hlength : (w ++ (t ++ rest)).length = w.length + (t.length + rest.length) := by simp
  rw [skip_white hw, h.skip]
  exact Json.parses item h rest _ hrest hlen (by omega)

theorem parseWithOpts_before {item : Item D} (h : Json White t item) (hlen : t.length < 2 ^ 31)
    {w : Text} (hw : White w) (hrest : Stops rest) :
    parseWithOpts (w ++ (t ++ rest)) false = .ok (item, rest) := by
  rw [parseWithOpts, parseValue_root h hlen hw hrest]
  rfl

theorem parseWithOpts_whole {item : Item D} (h : Json White t item) (hlen : t.length < 2 ^ 31)
    {w w' : Text} (hw : White w) (hw' : White w') :
    parseWithOpts (w ++ (t ++ w')) true = .ok (item, []) := by
  have hend : skip w' = [] := by
    have h := skip_white hw' []
    rwa [List.append_nil] at h
  have hstops : Stops w' := by
    apply stops_of_skip
    rw [hend]
    exact fun c r h => absurd h (List.cons_ne_nil c r).symm
  rw [parseWithOpts, parseValue_root h hlen hw hstops]
  simp only [bind, Except.bind, hend]
  rfl

end Wish.CJson
