import Wish.Memory.CJson.RoundTrip

/-!
# `cJSON_Minify`

`memory/face++_pro/parseJson/cJSON.c`: a text is rewritten in place without its white space and its
comments. `minify_json`: what is left of a JSON text with comments is a JSON text without them that
stands for the same. `minify_print`: what is left of a formatted item is what is printed for it
without the format. A comment that begins with `/*/` is no part of this: it ends there for
`cJSON_Minify`.
-/

namespace Wish.CJson

variable {D : Type} [Double D] {c : Char} {t t' u u' w rest : Text}

/-- The loop that the pointer `json` is in. -/
inductive Mode where
  | text
  | string
  | line
  | block
  deriving DecidableEq, Repr

/-- The white space that is left out. -/
def isBlank (c : Char) : Bool := c = ' ' || c = '\t' || c = '\r' || c = '\n'

/-- `cJSON_Minify`, character by character. The first two characters of a comment cannot end it,
except that the `*` of a block may. -/
def minify : Mode → Text → Result Text
  | .text, [] => .ok []
  | .text, '/' :: '/' :: json => minify .line json
  | .text, '/' :: '*' :: '/' :: json => minify .text json
  | .text, '/' :: '*' :: json => minify .block json
  | .text, '"' :: json => do
    let into ← minify .string json
    return '"' :: into
  | .text, c :: json =>
    if isBlank c then minify .text json
    else do
      let into ← minify .text json
      return c :: into
  | .line, [] => .ok []
  | .line, c :: json => if c = '\n' then minify .text json else minify .line json
  | .block, '*' :: '/' :: json => minify .text json
  | .block, _ :: json => minify .block json
  | .block, [] => .error (.fault .read)
  | .string, '"' :: json => do
    let into ← minify .text json
    return '"' :: into
  | .string, '\\' :: c :: json => do
    let into ← minify .string json
    return '\\' :: c :: into
  | .string, ['\\'] => .error (.fault .read)
  | .string, c :: json => do
    let into ← minify .string json
    return c :: into
  | .string, [] => .error (.fault .read)

/-- `t` becomes `u`, whatever follows. -/
def Minifies (t u : Text) : Prop :=
  ∀ rest, minify .text (t ++ rest) = (u ++ ·) <$> minify .text rest

theorem map_map (r : Result Text) : ((u ++ ·) <$> (u' ++ ·) <$> r) = ((u ++ u') ++ ·) <$> r := by
  cases r with
  | error e => rfl
  | ok t => exact congrArg Except.ok (List.append_assoc u u' t).symm

theorem Minifies.append (h : Minifies t u) (h' : Minifies t' u') :
    Minifies (t ++ t') (u ++ u') := by
  intro rest
  rw [List.append_assoc, h, h', map_map]

theorem Minifies.nil : Minifies [] [] := by
  intro rest
  rw [List.nil_append]
  cases minify .text rest with
  | error e => rfl
  | ok t => rfl

theorem minifies_blank (h : isBlank c = true) : Minifies [c] [] := by
  intro rest
  have hne : c ≠ '/' ∧ c ≠ '"' := by
    constructor
    all_goals
      rintro rfl
      cases h
  rw [List.singleton_append, minify]
  · rw [if_pos h]
    exact Minifies.nil rest
  all_goals simp [hne]

theorem minifies_char (hblank : isBlank c = false) (hslash : c ≠ '/') (hquote : c ≠ '"') :
    Minifies [c] [c] := by
  intro rest
  rw [List.singleton_append, minify]
  · rw [hblank]
    rfl
  all_goals simp [hslash, hquote]

/-- Text without blanks, slashes and quotes. -/
def Solid (t : Text) : Prop := ∀ c ∈ t, isBlank c = false ∧ c ≠ '/' ∧ c ≠ '"'

instance (t : Text) : Decidable (Solid t) :=
  List.decidableBAll (fun c => isBlank c = false ∧ c ≠ '/' ∧ c ≠ '"') t

theorem minifies_solid (h : Solid t) : Minifies t t := by
  induction t with
  | nil => exact .nil
  | cons c t ih =>
    obtain ⟨hblank, hslash, hquote⟩ := h c List.mem_cons_self
    exact (minifies_char hblank hslash hquote).append
      (ih fun c hc => h c (List.mem_cons_of_mem _ hc))

/-! ## Strings -/

/-- Some characters of a string, which do not end it. -/
def Kept (t : Text) : Prop :=
  ∀ rest, minify .string (t ++ rest) = (t ++ ·) <$> minify .string rest

theorem Kept.append (h : Kept t) (h' : Kept t') : Kept (t ++ t') := by
  intro rest
  rw [List.append_assoc, h, h', map_map]

theorem kept_plain (hquote : c ≠ '"') (hback : c ≠ '\\') : Kept [c] := by
  intro rest
  rw [List.singleton_append, minify]
  · rfl
  all_goals simp [hquote, hback]

theorem kept_escape (c : Char) : Kept ['\\', c] := by
  intro rest
  rw [List.cons_append, List.singleton_append, minify]
  rfl

theorem kept_hex4 {uc : ℕ} (h : Hex4 t uc) : Kept t := by
  cases h with
  | @digits a b c d _ _ _ _ ha hb hc hd =>
    have hkept : ∀ {c x}, hexValue c = some x → Kept [c] := fun hc =>
      kept_plain (hexValue_plain hc).1 (hexValue_plain hc).2
    exact (hkept ha).append ((hkept hb).append ((hkept hc).append (hkept hd)))

theorem kept_spells {v : Text} (h : Spells t v) : Kept t := by
  induction h with
  | nil =>
    intro rest
    rw [List.nil_append]
    cases minify .string rest with
    | error e => rfl
    | ok t => rfl
  | raw c hquote hback h ih => exact (kept_plain hquote hback).append ih
  | short c e he h ih => exact (kept_escape e).append ih
  | slash h ih => exact (kept_escape '/').append ih
  | unit c hd hc h ih => exact ((kept_escape 'u').append (kept_hex4 hd)).append ih
  | pair c hhigh hlow hc h ih =>
    exact ((kept_escape 'u').append ((kept_hex4 hhigh).append
      ((kept_escape 'u').append (kept_hex4 hlow)))).append ih

theorem minifies_string {v : Text} (h : Spells t v) :
    Minifies ('"' :: (t ++ ['"'])) ('"' :: (t ++ ['"'])) := by
  intro rest
  have hend : minify .string ('"' :: rest) = (['"'] ++ ·) <$> minify .text rest := by
    rw [minify]
    rfl
  have hkept := kept_spells h ('"' :: rest)
  rw [List.cons_append, List.append_assoc, List.singleton_append, minify, hkept, hend]
  cases minify .text rest with
  | error e => rfl
  | ok u => simp [bind, Except.bind, Functor.map, Except.map, pure, Except.pure]

/-! ## White space and comments -/

/-- White space and comments. A block that begins with a slash, as `/*/ x */`, is left out:
`cJSON_Minify` takes its first three characters for the whole comment. -/
inductive Comments : Text → Prop
  | nil : Comments []
  | white {w : Text} (c : Char) (hc : c.toNat ≤ 32) (h : Comments w) : Comments (c :: w)
  /-- `//`, up to the end of the line -/
  | line {w : Text} (l : Text) (hl : '\n' ∉ l) (h : Comments w) :
    Comments ('/' :: '/' :: (l ++ '\n' :: w))
  /-- `/*`, up to the first `*/` behind the first slash -/
  | block {w : Text} (b : Text) (hb : ¬['*', '/'] <:+: '*' :: (b ++ ['*'])) (h : Comments w) :
    Comments ('/' :: '*' :: (b ++ '*' :: '/' :: w))

/-- What may stand at the end of a text: the last comment needs no end of the line there. -/
inductive Ended : Text → Prop
  | comments {w : Text} (h : Comments w) : Ended w
  | line {w : Text} (l : Text) (hl : '\n' ∉ l) (h : Comments w) : Ended (w ++ '/' :: '/' :: l)

theorem minify_line {l : Text} (hl : '\n' ∉ l) (rest : Text) :
    minify .line (l ++ '\n' :: rest) = minify .text rest := by
  induction l with
  | nil => rw [List.nil_append, minify, if_pos rfl]
  | cons c l ih =>
    have hne : c ≠ '\n' := fun h => hl (h ▸ List.mem_cons_self)
    rw [List.cons_append, minify, if_neg hne]
    exact ih fun h => hl (List.mem_cons_of_mem _ h)

theorem minify_block {b : Text} (hb : ¬['*', '/'] <:+: b ++ ['*']) (rest : Text) :
    minify .block (b ++ '*' :: '/' :: rest) = minify .text rest := by
  induction b with
  | nil => rw [List.nil_append, minify]
  | cons c b ih =>
    have htail : ¬['*', '/'] <:+: b ++ ['*'] := fun h => hb (h.trans (List.suffix_cons _ _).isInfix)
    rw [List.cons_append, minify]
    · exact ih htail
    · rintro json rfl heq
      cases b with
      | nil => cases heq
      | cons c b =>
        cases heq
        exact hb ⟨[], b ++ ['*'], rfl⟩

theorem Comments.minifies (h : Comments w) : ∃ w', Minifies w w' ∧ White w' := by
  induction h with
  | nil => exact ⟨[], .nil, .nil⟩
  | @white w c hc h ih =>
    obtain ⟨w', hw, hwhite⟩ := ih
    cases hblank : isBlank c with
    | true => exact ⟨w', (minifies_blank hblank).append hw, hwhite⟩
    | false =>
      have hne : c ≠ '/' ∧ c ≠ '"' := by
        constructor
        all_goals
          rintro rfl
          exact absurd hc (by decide)
      refine ⟨c :: w', (minifies_char hblank hne.1 hne.2).append hw, ?_⟩
      intro d hd
      rcases List.mem_cons.mp hd with rfl | hd
      · exact hc
      · exact hwhite d hd
  | @line w l hl h ih =>
    obtain ⟨w', hw, hwhite⟩ := ih
    refine ⟨w', fun rest => ?_, hwhite⟩
    simp only [List.cons_append, List.append_assoc]
    rw [minify, minify_line hl, hw]
  | @block w b hb h ih =>
    obtain ⟨w', hw, hwhite⟩ := ih
    have hblock : ¬['*', '/'] <:+: b ++ ['*'] := fun h =>
      hb (h.trans (List.suffix_cons _ _).isInfix)
    refine ⟨w', fun rest => ?_, hwhite⟩
    simp only [List.cons_append, List.append_assoc]
    rw [minify]
    · rw [minify_block hblock, hw]
    · rintro json heq
      cases b with
      | nil => cases heq
      | cons c b =>
        cases heq
        exact hb ⟨[], b ++ ['*'], rfl⟩

/-- A comment that ends with the text. -/
theorem minify_line_end {l : Text} (hl : '\n' ∉ l) : minify .line l = .ok [] := by
  induction l with
  | nil => rw [minify]
  | cons c l ih =>
    have hne : c ≠ '\n' := fun h => hl (h ▸ List.mem_cons_self)
    rw [minify, if_neg hne]
    exact ih fun h => hl (List.mem_cons_of_mem _ h)

theorem minify_text (h : Minifies t u) : minify .text t = .ok u := by
  have htext := h []
  rw [List.append_nil, minify] at htext
  rw [htext]
  exact congrArg Except.ok (List.append_nil u)

theorem Ended.minify (h : Ended w) : ∃ w', minify .text w = .ok w' ∧ White w' := by
  cases h with
  | comments h =>
    obtain ⟨w', hw, hwhite⟩ := h.minifies
    exact ⟨w', minify_text hw, hwhite⟩
  | @line w l hl h =>
    obtain ⟨w', hw, hwhite⟩ := h.minifies
    refine ⟨w' ++ [], ?_, hwhite.append .nil⟩
    rw [hw, CJson.minify, minify_line_end hl]
    rfl

/-- If a text is left, it has at most `n` characters. -/
def AtMost (n : ℕ) (r : Result Text) : Prop := ∀ u, r = .ok u → u.length ≤ n

/-- Some characters are left out. -/
theorem AtMost.skip {r : Result Text} (h : AtMost u.length r) (ht : u <:+ t) : AtMost t.length r :=
  fun v hv => (h v hv).trans ht.length_le

/-- Some characters are kept. -/
theorem AtMost.keep {n m : ℕ} {r : Result Text} (h : AtMost n r) (hm : n + t.length ≤ m) :
    AtMost m (r >>= fun into => .ok (t ++ into)) := by
  rintro u hu
  cases hr : r with
  | error e =>
    rw [hr] at hu
    cases hu
  | ok into =>
    rw [hr] at hu
    cases hu
    have hle := h into hr
    rw [List.length_append]
    omega

/-- What is left is not longer. -/
theorem length_minify_le (mode : Mode) (t : Text) : AtMost t.length (minify mode t) := by
  fun_induction minify mode t with
  | case1 => rintro u ⟨⟩; exact le_rfl
  | case2 json ih => exact ih.skip ⟨['/', '/'], rfl⟩
  | case3 json ih => exact ih.skip ⟨['/', '*', '/'], rfl⟩
  | case4 json _ ih => exact ih.skip ⟨['/', '*'], rfl⟩
  | case5 json ih => exact ih.keep (t := ['"']) le_rfl
  | case6 c json _ _ _ _ hblank ih => exact ih.skip ⟨[c], rfl⟩
  | case7 c json _ _ _ _ hblank ih => exact ih.keep (t := [c]) le_rfl
  | case8 => rintro u ⟨⟩; exact le_rfl
  | case9 json ih => exact ih.skip ⟨['\n'], rfl⟩
  | case10 c json hc ih => exact ih.skip ⟨[c], rfl⟩
  | case11 json ih => exact ih.skip ⟨['*', '/'], rfl⟩
  | case12 c json _ ih => exact ih.skip ⟨[c], rfl⟩
  | case13 => rintro u ⟨⟩
  | case14 json ih => exact ih.keep (t := ['"']) le_rfl
  | case15 c json ih => exact ih.keep (t := ['\\', c]) le_rfl
  | case16 => rintro u ⟨⟩
  | case17 c json _ _ _ ih => exact ih.keep (t := [c]) le_rfl
  | case18 => rintro u ⟨⟩

/-! ## Items -/

theorem solid_printInt (i : ℤ) : Solid (printInt i) := by
  have hdigits : Solid (Nat.toDigits 10 i.natAbs) := by
    intro c hc
    have hdigit := isDigit_toDigits hc
    refine ⟨?_, ?_, ?_⟩
    · by_contra hblank
      simp only [Bool.not_eq_false, isBlank, Bool.or_eq_true, decide_eq_true_eq] at hblank
      rcases hblank with ((rfl | rfl) | rfl) | rfl
      all_goals cases hdigit
    all_goals
      rintro rfl
      cases hdigit
  unfold printInt
  split
  · intro c hc
    rcases List.mem_cons.mp hc with rfl | hc
    · exact ⟨rfl, by decide, by decide⟩
    · exact hdigits c hc
  · exact hdigits

/-- Brackets and what is between them. -/
theorem Minifies.brackets {a b : Char} (h : Minifies t u) (ha : Minifies [a] [a])
    (hb : Minifies [b] [b]) : Minifies (a :: (t ++ [b])) (a :: (u ++ [b])) :=
  ha.append (h.append hb)

theorem minifies_bracket (h : c ∈ ['[', ']', '{', '}', ',', ':']) : Minifies [c] [c] := by
  simp only [List.mem_cons, List.not_mem_nil, or_false] at h
  rcases h with rfl | rfl | rfl | rfl | rfl | rfl
  all_goals exact minifies_char rfl (by decide) (by decide)

/-- A member up to its colon. -/
theorem Minifies.member {v w₁ v₁ n s : Text} (hw : Minifies w v) (hn : Spells n s)
    (hw₁ : Minifies w₁ v₁) (h : Minifies t u) :
    Minifies (w ++ '"' :: (n ++ '"' :: (w₁ ++ ':' :: t)))
      (v ++ '"' :: (n ++ '"' :: (v₁ ++ ':' :: u))) := by
  have hcolon : Minifies [':'] [':'] := minifies_bracket (by decide)
  have happend := hw.append ((minifies_string hn).append (hw₁.append (hcolon.append h)))
  simpa using happend

-- by recursion on the item, as for the parser
mutual

theorem Json.minify {t : Text} (item : Item D) (h : Json Comments t item) :
    ∃ u, Minifies t u ∧ Json White u item := by
  cases item with
  | null =>
    cases h
    exact ⟨_, minifies_solid (by decide), .null⟩
  | false =>
    cases h
    exact ⟨_, minifies_solid (by decide), .false⟩
  | true =>
    cases h
    exact ⟨_, minifies_solid (by decide), .true⟩
  | number valueint valuedouble =>
    cases h with
    | number _ hlow hhigh => exact ⟨_, minifies_solid (solid_printInt _), .number _ hlow hhigh⟩
  | string valuestring =>
    cases h with
    | string h => exact ⟨_, minifies_string h, .string h⟩
  | array child =>
    have hopen : Minifies ['['] ['['] := minifies_bracket (by decide)
    have hclose : Minifies [']'] [']'] := minifies_bracket (by decide)
    cases h with
    | noEntries hw =>
      obtain ⟨w', hw, hwhite⟩ := hw.minifies
      exact ⟨_, hw.brackets hopen hclose, .noEntries hwhite⟩
    | entries h =>
      obtain ⟨u, hu, h⟩ := Entries.minify child h
      exact ⟨_, hu.brackets hopen hclose, .entries h⟩
  | object child =>
    have hopen : Minifies ['{'] ['{'] := minifies_bracket (by decide)
    have hclose : Minifies ['}'] ['}'] := minifies_bracket (by decide)
    cases h with
    | noMembers hw =>
      obtain ⟨w', hw, hwhite⟩ := hw.minifies
      exact ⟨_, hw.brackets hopen hclose, .noMembers hwhite⟩
    | members h =>
      obtain ⟨u, hu, h⟩ := Members.minify child h
      exact ⟨_, hu.brackets hopen hclose, .members h⟩

theorem Entries.minify {t : Text} (child : Items D) (h : Entries Comments t child) :
    ∃ u, Minifies t u ∧ Entries White u child := by
  have hcomma : Minifies [','] [','] := minifies_bracket (by decide)
  cases child with
  | nil => cases h
  | cons string item next =>
    cases h with
    | last hw h hw' =>
      obtain ⟨v, hv, hwhite⟩ := hw.minifies
      obtain ⟨u, hu, hitem⟩ := Json.minify item h
      obtain ⟨v', hv', hwhite'⟩ := hw'.minifies
      exact ⟨_, hv.append (hu.append hv'), .last hwhite hitem hwhite'⟩
    | cons hw h hw' hnext =>
      obtain ⟨v, hv, hwhite⟩ := hw.minifies
      obtain ⟨u, hu, hitem⟩ := Json.minify item h
      obtain ⟨v', hv', hwhite'⟩ := hw'.minifies
      obtain ⟨x, hx, hnext⟩ := Entries.minify next hnext
      exact ⟨_, hv.append (hu.append (hv'.append (hcomma.append hx))),
        .cons hwhite hitem hwhite' hnext⟩

theorem Members.minify {t : Text} (child : Items D) (h : Members Comments t child) :
    ∃ u, Minifies t u ∧ Members White u child := by
  have hcomma : Minifies [','] [','] := minifies_bracket (by decide)
  cases child with
  | nil => cases h
  | cons string item next =>
    cases h with
    | last hw hn hw₁ hw₂ h hw' =>
      obtain ⟨v, hv, hwhite⟩ := hw.minifies
      obtain ⟨v₁, hv₁, hwhite₁⟩ := hw₁.minifies
      obtain ⟨v₂, hv₂, hwhite₂⟩ := hw₂.minifies
      obtain ⟨u, hu, hitem⟩ := Json.minify item h
      obtain ⟨v', hv', hwhite'⟩ := hw'.minifies
      exact ⟨_, hv.member hn hv₁ (hv₂.append (hu.append hv')),
        .last hwhite hn hwhite₁ hwhite₂ hitem hwhite'⟩
    | cons hw hn hw₁ hw₂ h hw' hnext =>
      obtain ⟨v, hv, hwhite⟩ := hw.minifies
      obtain ⟨v₁, hv₁, hwhite₁⟩ := hw₁.minifies
      obtain ⟨v₂, hv₂, hwhite₂⟩ := hw₂.minifies
      obtain ⟨u, hu, hitem⟩ := Json.minify item h
      obtain ⟨v', hv', hwhite'⟩ := hw'.minifies
      obtain ⟨x, hx, hnext⟩ := Members.minify next hnext
      exact ⟨_, hv.member hn hv₁ (hv₂.append (hu.append (hv'.append (hcomma.append hx)))),
        .cons hwhite hn hwhite₁ hwhite₂ hitem hwhite' hnext⟩

end

theorem minifies_tabs (fmt : Bool) (depth : ℕ) : Minifies (tabs fmt depth) [] := by
  cases fmt with
  | false => exact .nil
  | true =>
    induction depth with
    | zero => exact .nil
    | succ depth ih => exact (minifies_blank (c := '\t') rfl).append ih

/-- The white space of the format. -/
theorem minifies_fmt (fmt : Bool) (h : isBlank c = true) :
    Minifies (if fmt then [c] else []) [] := by
  cases fmt with
  | false => exact .nil
  | true => exact minifies_blank h

omit [Double D] in
theorem minifies_comma (next : Items D) : Minifies (comma next) (comma next) := by
  cases next with
  | nil => exact .nil
  | cons => exact minifies_bracket (by decide)

theorem minifies_stringText {s : Text} (hs : '\x00' ∉ s) :
    Minifies (stringText (some s)) (stringText (some s)) :=
  minifies_string (spells_print hs)

-- by recursion on the item, as `print_value` goes
mutual

theorem minifies_print (item : Item D) (h : item.Formed Small) (depth depth' : ℕ) (fmt : Bool) :
    Minifies (valueText item depth fmt) (valueText item depth' false) := by
  cases item with
  | null => exact minifies_solid (t := nullText) (by decide)
  | false => exact minifies_solid (t := falseText) (by decide)
  | true => exact minifies_solid (t := trueText) (by decide)
  | number valueint valuedouble =>
    obtain ⟨⟨hlow, hhigh⟩, rfl⟩ := h
    rw [valueText, valueText, numberText_ofInt hlow hhigh]
    exact minifies_solid (solid_printInt valueint)
  | string valuestring =>
    obtain ⟨s, rfl, hs⟩ := h
    exact minifies_stringText hs
  | array child =>
    have hentries := minifies_entries child h (depth + 1) (depth' + 1) fmt
    exact hentries.brackets (minifies_bracket (by decide)) (minifies_bracket (by decide))
  | object child =>
    have hopen : Minifies ['{'] ['{'] := minifies_bracket (by decide)
    have hclose : Minifies ['}'] ['}'] := minifies_bracket (by decide)
    have hmembers := minifies_members child h (depth + 1) (depth' + 1) fmt
    have hline : Minifies (if fmt then ['\n'] else []) [] := minifies_fmt fmt rfl
    rw [valueText, valueText]
    split
    · have hempty : Minifies (if fmt then '\n' :: tabs fmt (depth - 1) else []) [] := by
        cases fmt with
        | false => exact .nil
        | true => exact hline.append (minifies_tabs true (depth - 1))
      exact hempty.brackets hopen hclose
    · have hinner := (hline.append hmembers).append (minifies_tabs fmt depth)
      exact hopen.append (hinner.append hclose)

theorem minifies_entries (child : Items D) (h : child.Unnamed Small) (depth depth' : ℕ)
    (fmt : Bool) : Minifies (entriesText child depth fmt) (entriesText child depth' false) := by
  cases child with
  | nil => exact .nil
  | cons string item next =>
    have hitem := minifies_print item h.2.1 depth depth' fmt
    have hnext := minifies_entries next h.2.2 depth depth' fmt
    have hspace : Minifies (if !next.isNil && fmt then [' '] else []) [] :=
      minifies_fmt (!next.isNil && fmt) rfl
    have hnone : (if !next.isNil && false then [' '] else []) = [] := by simp
    rw [entriesText, entriesText, hnone]
    exact (hitem.append ((minifies_comma next).append hspace)).append hnext

theorem minifies_members (child : Items D) (h : child.Named Small) (depth depth' : ℕ)
    (fmt : Bool) : Minifies (membersText child depth fmt) (membersText child depth' false) := by
  cases child with
  | nil => exact .nil
  | cons string item next =>
    obtain ⟨⟨s, rfl, hs⟩, hitem, hnext⟩ := h
    have hname := (minifies_tabs fmt depth).append (minifies_stringText hs)
    have hcolon : Minifies [':'] [':'] := minifies_bracket (by decide)
    have htab : Minifies (if fmt then ['\t'] else []) [] := minifies_fmt fmt rfl
    have hline : Minifies (if fmt then ['\n'] else []) [] := minifies_fmt fmt rfl
    have hvalue := (hname.append (hcolon.append htab)).append
      (minifies_print item hitem depth depth' fmt)
    have hnext := minifies_members next hnext depth depth' fmt
    rw [membersText, membersText]
    exact ((hvalue.append (minifies_comma next)).append hline).append hnext

end

/-- **`cJSON_Minify` takes the format away**: what `cJSON_Print` gives becomes what
`cJSON_PrintUnformatted` gives. -/
theorem minify_print {item : Item D} (h : item.Formed Small) (hprint : print item = .ok t)
    (hprint' : printUnformatted item = .ok t') : CJson.minify .text t = .ok t' := by
  have hfitting := Item.Numbers.mono (fun _ _ h => Small.fitting h) item (Item.Formed.numbers item h)
  obtain ⟨rfl, -⟩ := printValue_ok hfitting hprint
  obtain ⟨rfl, -⟩ := printValue_ok hfitting hprint'
  exact minify_text (minifies_print item h 0 0 true)

theorem minify_print_nested :
    ∃ t t', print nested = .ok t ∧ printUnformatted nested = .ok t' ∧
      CJson.minify .text t = .ok t' := by
  have hprint : print nested = .ok (valueText nested 0 true) := by decide +kernel
  have hprint' : printUnformatted nested = .ok (valueText nested 0 false) := by decide +kernel
  refine ⟨_, _, hprint, hprint', minify_print ?_ hprint hprint'⟩
  refine ⟨⟨_, rfl, by decide⟩, ⟨rfl, ⟨by decide, rfl⟩, rfl, trivial, trivial⟩, ?_⟩
  exact ⟨⟨_, rfl, by decide⟩, trivial, trivial⟩

end Wish.CJson
