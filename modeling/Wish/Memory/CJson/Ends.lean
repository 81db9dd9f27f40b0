import Wish.Memory.CJson.RoundTrip

/-!
# Parsing any text

`memory/face++_pro/parseJson/cJSON.c`: what comes out of the parser for a text that may be no JSON at
all (`Gives`). It always comes to an end: with an item and a place behind it, with `ep` at a place of
the text, or with a fault for which there is something in the text (`parseWithOpts_ends`): a backslash,
an exponent, a number that no `int` can hold, or too many characters. An item that comes out is formed
as one that is printed has to be, so that it is parsed again from what is printed for it
(`print_parse`).
-/

namespace Wish.CJson

variable {D α β : Type} {value t : Text} {n m : ℕ} {P : α → Prop} {Q : β → Prop}

/-- What there is in the text when the parser runs into a fault. -/
def Blames (value : Text) : Fault → Prop
  | .read => '\\' ∈ value
  | .write => '\\' ∈ value
  | .overflow => ('e' ∈ value ∨ 'E' ∈ value) ∨ 2 ^ 31 ≤ value.length
  | .conversion => ∃ c ∈ value, c = '-' ∨ c.isDigit = true

theorem Blames.mono {f : Fault} (h : Blames t f) (ht : t <:+ value) : Blames value f := by
  cases f with
  | read => exact ht.subset h
  | write => exact ht.subset h
  | overflow =>
    rcases h with (h | h) | h
    · exact Or.inl (Or.inl (ht.subset h))
    · exact Or.inl (Or.inr (ht.subset h))
    · exact Or.inr (le_trans h ht.length_le)
  | conversion =>
    obtain ⟨c, hc, hnumber⟩ := h
    exact ⟨c, ht.subset hc, hnumber⟩

/-- What a function of the parser gives in `value`: a place in it, `n` characters on at least, with
something for which `P` holds, or a failure at a place of it. -/
def Gives (value : Text) (n : ℕ) (P : α → Prop) : Result (α × Text) → Prop
  | .ok (a, rest) => (rest <:+ value ∧ rest.length + n ≤ value.length) ∧ P a
  | .error (.malformed ep) => ep <:+ value
  | .error (.fault f) => Blames value f
  | .error .steps => False

theorem Gives.ok {a : α} {rest : Text} (h : rest <:+ value) (hlen : rest.length + n ≤ value.length)
    (ha : P a) : Gives value n P (.ok (a, rest)) := ⟨⟨h, hlen⟩, ha⟩

/-- One function after the other, in the end of a text. -/
theorem Gives.bind {r : Result (α × Text)} {f : α × Text → Result (β × Text)}
    (h : Gives t n P r) (ht : t <:+ value)
    (hf : ∀ a rest, rest <:+ t → rest.length + n ≤ t.length → P a →
      Gives value m Q (f (a, rest))) : Gives value m Q (r >>= f) := by
  match r with
  | .ok (a, rest) => exact hf a rest h.1.1 h.1.2 h.2
  | .error (.malformed ep) => exact List.IsSuffix.trans h ht
  | .error (.fault f) => exact Blames.mono h ht
  | .error .steps => exact h.elim

/-- In the end of a text. -/
theorem Gives.mono {P' : α → Prop} {r : Result (α × Text)} (h : Gives t n P r) (ht : t <:+ value)
    (hlen : t.length + m ≤ value.length + n) (hP : ∀ a, P a → P' a) : Gives value m P' r := by
  match r with
  | .ok (a, rest) => exact ⟨⟨h.1.1.trans ht, by have := h.1.2; omega⟩, hP a h.2⟩
  | .error (.malformed ep) => exact List.IsSuffix.trans h ht
  | .error (.fault f) => exact Blames.mono h ht
  | .error .steps => exact h

theorem skip_suffix (t : Text) : skip t <:+ t := List.dropWhile_suffix _

theorem length_skip_le (t : Text) : (skip t).length ≤ t.length := (skip_suffix t).length_le

/-! ## Strings -/

/-- What there is of a string without backslashes. -/
def plain (t : Text) : Text := t.takeWhile (· != '"')

theorem int_cases (n : ℕ) :
    int n = .ok n ∨ int n = .error (.fault .overflow) ∧ 2 ^ 31 ≤ n := by
  unfold int
  split
  · exact Or.inl rfl
  · exact Or.inr ⟨rfl, by omega⟩

/-- What the first loop gives: a count, which is what there is of the string where there is no
backslash, or a fault. -/
def Counts (len : ℕ) (t : Text) : Result ℕ → Prop
  | .ok k => k ≤ len + t.length ∧ ('\\' ∉ t → k = len + (plain t).length)
  | .error e =>
    e = .fault .read ∧ '\\' ∈ t ∨ e = .fault .overflow ∧ 2 ^ 31 ≤ len + t.length

/-- One round of the first loop, from `u` to `t`. -/
theorem Counts.round {len : ℕ} {u : Text} {f : ℕ → Result ℕ} (h : Counts (len + 1) t (f (len + 1)))
    (ht : t <:+ u) (hlength : t.length + 1 ≤ u.length)
    (hplain : '\\' ∉ u → (plain u).length = (plain t).length + 1) :
    Counts len u (int (len + 1) >>= f) := by
  rcases int_cases (len + 1) with hint | ⟨hint, hlen⟩
  · rw [hint]
    change Counts len u (f (len + 1))
    match hf : f (len + 1) with
    | .ok k =>
      rw [hf] at h
      obtain ⟨hle, hcount⟩ := h
      refine ⟨by omega, fun hback => ?_⟩
      rw [hcount fun hmem => hback (ht.subset hmem), hplain hback]
      omega
    | .error e =>
      rw [hf] at h
      rcases h with ⟨rfl, hback⟩ | ⟨rfl, hle⟩
      · exact Or.inl ⟨rfl, ht.subset hback⟩
      · exact Or.inr ⟨rfl, by omega⟩
  · rw [hint]
    exact Or.inr ⟨rfl, by omega⟩

theorem plain_cons {c : Char} (hquote : c ≠ '"') (t : Text) :
    (plain (c :: t)).length = (plain t).length + 1 := by
  rw [plain, List.takeWhile_cons_of_pos (by simpa using hquote)]
  rfl

/-- The first loop. -/
theorem countString_counts (len : ℕ) (t : Text) : Counts len t (countString len t) := by
  fun_induction countString len t with
  | case1 len => exact ⟨le_rfl, fun _ => rfl⟩
  | case2 len t => exact ⟨Nat.le_add_right _ _, fun _ => rfl⟩
  | case3 len =>
    rcases int_cases (len + 1) with hint | ⟨hint, hlen⟩
    · rw [hint]
      exact Or.inl ⟨rfl, List.mem_singleton_self _⟩
    · rw [hint]
      exact Or.inr ⟨rfl, hlen⟩
  | case4 len c t ih =>
    have ht : t <:+ '\\' :: c :: t := (List.suffix_cons c t).trans (List.suffix_cons _ _)
    exact (ih (len + 1)).round ht (by simp) fun hback => absurd List.mem_cons_self hback
  | case5 len c t hquote _ _ ih =>
    refine (ih (len + 1)).round (List.suffix_cons c t) le_rfl fun _ => plain_cons ?_ t
    rintro rfl
    exact hquote rfl

/-- The bytes of a code point are no NUL. -/
theorem nul_not_mem_encode {uc : ℕ} (hpos : uc ≠ 0) (hlt : uc < 0x110000) :
    '\x00' ∉ encode uc := by
  intro hmem
  have hbyte : ∀ k, 0 < k → k < 256 → '\x00' ≠ byte k := by
    intro k hpos hlt h
    have hk := toNat_byte hlt
    rw [← h] at hk
    exact absurd hk (Nat.ne_of_lt hpos)
  rcases encode_cases hlt with ⟨h, he⟩ | ⟨h, h', he⟩ | ⟨h, h', he⟩ | ⟨h, he⟩
  all_goals
    rw [he] at hmem
    simp only [List.mem_cons, List.not_mem_nil, or_false] at hmem
  · exact hbyte _ (by omega) (by omega) hmem
  · rcases hmem with hmem | hmem
    all_goals exact hbyte _ (by omega) (by omega) hmem
  · rcases hmem with hmem | hmem | hmem
    all_goals exact hbyte _ (by omega) (by omega) hmem
  · rcases hmem with hmem | hmem | hmem | hmem
    all_goals exact hbyte _ (by omega) (by omega) hmem

theorem parseHex4_lt (t : Text) : parseHex4 t < 2 ^ 16 := by
  have hfrom : ∀ k h t, h < 16 ^ (4 - k) → k ≤ 4 → hexFrom k h t < 2 ^ 16 := by
    intro k
    induction k with
    | zero => exact fun h t hlt _ => hlt
    | succ k ih =>
      intro h t hlt hk
      cases t with
      | nil => exact (by decide : 0 < 2 ^ 16)
      | cons c t =>
        rw [hexFrom]
        split
        · rename_i d hd
          have hd := hexValue_lt hd
          have hpow : 4 - k = 4 - (k + 1) + 1 := by omega
          refine ih _ _ ?_ (by omega)
          rw [hpow, Nat.pow_succ, Nat.shiftLeft_eq]
          omega
        · decide
  exact hfrom 4 0 t (by decide) le_rfl

/-- Bytes without a NUL, unless there is one in the text. -/
def Clean (value v : Text) : Prop := '\x00' ∉ value → '\x00' ∉ v

theorem advance_cases (n : ℕ) (t : Text) :
    (∃ rest, advance n t = .ok rest ∧ rest <:+ t) ∨ advance n t = .error (.fault .read) := by
  unfold advance
  split
  · exact Or.inl ⟨_, rfl, List.drop_suffix n t⟩
  · exact Or.inr rfl

theorem transcode_gives (hback : '\\' ∈ value) (ht : t <:+ value)
    (hlen : t.length + n ≤ value.length) : Gives value n (Clean value) (transcode t) := by
  have hnone : ∀ rest, rest <:+ t → Gives value n (Clean value) (.ok ([], rest)) :=
    fun rest h => .ok (h.trans ht) (by have := h.length_le; omega) fun _ => List.not_mem_nil
  have hsome : ∀ uc rest, uc ≠ 0 → uc < 0x110000 → rest <:+ t →
      Gives value n (Clean value) (.ok (encode uc, rest)) :=
    fun uc rest hpos hlt h => .ok (h.trans ht) (by have := h.length_le; omega) fun _ =>
      nul_not_mem_encode hpos hlt
  have hlt := parseHex4_lt t
  unfold transcode
  rcases advance_cases 4 t with ⟨t', hadvance, ht'⟩ | hfault
  · simp only [hadvance, bind, Except.bind]
    split
    · exact hnone t' ht'
    · rename_i hne
      split
      · split
        · rename_i t''
          have ht'' : t'' <:+ t :=
            ((List.suffix_cons 'u' t'').trans (List.suffix_cons '\\' _)).trans ht'
          have hlt2 := parseHex4_lt t''
          rcases advance_cases 4 t'' with ⟨rest, hadvance, hrest⟩ | hfault
          · simp only [hadvance]
            split
            · exact hnone rest (hrest.trans ht'')
            · have hand : ∀ x, x &&& 0x3FF = x % 1024 :=
                fun x => Nat.and_two_pow_sub_one_eq_mod x 10
              have hmod : parseHex4 t'' % 1024 < 2 ^ 10 := Nat.mod_lt _ (by decide)
              refine hsome _ rest (by omega) ?_ (hrest.trans ht'')
              rw [hand, hand, Nat.shiftLeft_eq, Nat.mul_comm, ← Nat.two_pow_add_eq_or_of_lt hmod]
              omega
          · simp only [hfault]
            exact hback
        · exact hnone _ ht'
      · exact hsome _ t' (by omega) (by omega) ht'
  · simp only [hfault, bind, Except.bind]
    exact hback

theorem unescape_gives (hback : '\\' ∈ value) (ht : t <:+ value)
    (hlen : t.length + n ≤ value.length) : Gives value n (Clean value) (unescape t) := by
  have htail : ∀ {c e : Char} {rest}, c :: rest <:+ t → (Clean value [e]) →
      Gives value n (Clean value) (.ok ([e], rest)) := by
    intro c e rest h he
    have hrest := (List.suffix_cons c rest).trans h
    exact .ok (hrest.trans ht) (by have := hrest.length_le; omega) he
  unfold unescape
  split
  · exact hback
  · exact htail (List.suffix_refl _) fun _ => by decide
  · exact htail (List.suffix_refl _) fun _ => by decide
  · exact htail (List.suffix_refl _) fun _ => by decide
  · exact htail (List.suffix_refl _) fun _ => by decide
  · exact htail (List.suffix_refl _) fun _ => by decide
  · exact transcode_gives hback ((List.suffix_cons _ _).trans ht) (by
      rw [List.length_cons] at hlen
      omega)
  · rename_i c rest _ _ _ _ _ _
    refine htail (List.suffix_refl _) fun hclean hmem => hclean ?_
    rw [List.mem_singleton.mp hmem]
    exact ht.subset List.mem_cons_self

/-- There is room as long as there is no backslash. -/
theorem write_gives {size : ℕ} {out bytes : Text} {f : Text → Result (Text × Text)}
    (hroom : '\\' ∉ value → out.length + bytes.length ≤ size)
    (hf : Gives value 0 (Clean value) (f (out ++ bytes))) :
    Gives value 0 (Clean value) (write size out bytes >>= f) := by
  unfold write
  split
  · exact hf
  · next hsize =>
    change '\\' ∈ value
    by_contra hback
    exact hsize (hroom hback)

theorem Clean.append {v w : Text} (hv : Clean value v) (hw : Clean value w) :
    Clean value (v ++ w) := by
  intro hclean hmem
  rcases List.mem_append.mp hmem with hmem | hmem
  · exact hv hclean hmem
  · exact hw hclean hmem

theorem Clean.of_suffix {v : Text} (h : Clean t v) (ht : t <:+ value) : Clean value v :=
  fun hclean => h fun hmem => hclean (ht.subset hmem)

/-- The second loop: there is room enough as long as there is no backslash. -/
theorem fillString_gives {size steps : ℕ} {out : Text} (ht : t <:+ value)
    (hsteps : t.length < steps)
    (hsize : '\\' ∉ value → out.length + (plain t).length < size)
    (hout : Clean value out) : Gives value 0 (Clean value) (fillString size steps t out) := by
  induction steps generalizing t out with
  | zero => omega
  | succ steps ih =>
    -- the NUL at the end
    have hend : ∀ rest, rest <:+ value → (plain t).length = 0 →
        Gives value 0 (Clean value) (do
          let _ ← write size out ['\x00']
          return (out, rest)) := by
      intro rest hrest hplain
      refine write_gives (fun hback => ?_) (.ok hrest hrest.length_le hout)
      have hroom := hsize hback
      rw [List.length_singleton]
      omega
    unfold fillString
    split
    · exact hend [] (List.nil_suffix) rfl
    · exact hend _ ((List.suffix_cons _ _).trans ht) rfl
    · rename_i t
      have hback : '\\' ∈ value := ht.subset List.mem_cons_self
      rw [List.length_cons] at hsteps
      refine (unescape_gives (n := 1) List.mem_cons_self (List.suffix_cons _ _) le_rfl).bind ht
        fun bytes rest hrest hlen hbytes => ?_
      rw [List.length_cons] at hlen
      refine write_gives (absurd hback) ?_
      exact ih (hrest.trans ht) (by omega) (absurd hback) (hout.append (hbytes.of_suffix ht))
    · rename_i c t hquote _
      have hplain : (plain (c :: t)).length = (plain t).length + 1 := by
        refine plain_cons ?_ t
        rintro rfl
        exact hquote rfl
      have hc : Clean value [c] := fun hclean hmem =>
        hclean (List.mem_singleton.mp hmem ▸ ht.subset List.mem_cons_self)
      rw [List.length_cons] at hsteps
      rw [hplain] at hsize
      refine write_gives (fun hback => ?_)
        (ih ((List.suffix_cons c t).trans ht) (by omega) (fun hback => ?_) (hout.append hc))
      all_goals
        have hroom := hsize hback
        simp only [List.length_append, List.length_singleton]
        omega

theorem parseString_gives (t : Text) : Gives t 1 (Clean t) (parseString t) := by
  unfold parseString
  split
  · rename_i t
    have hcounts := countString_counts 0 t
    match hcount : countString 0 t with
    | .ok k =>
      rw [hcount] at hcounts
      obtain ⟨hle, hplain⟩ := hcounts
      rcases int_cases (k + 1) with hint | ⟨hint, hlen⟩
      · have hfill : Gives t 0 (Clean t) (fillString (k + 1) (t.length + 1) t []) := by
          refine fillString_gives (List.suffix_refl t) (Nat.lt_succ_self _) (fun hback => ?_)
            fun _ => List.not_mem_nil
          rw [List.length_nil, hplain hback]
          omega
        simp only [bind, Except.bind, hint]
        exact hfill.mono (List.suffix_cons _ t) (by simp)
          fun v hv h => hv fun hmem => h (List.mem_cons_of_mem _ hmem)
      · simp only [bind, Except.bind, hint]
        have hlong : 2 ^ 31 ≤ ('"' :: t).length := by
          rw [List.length_cons]
          omega
        exact Or.inr hlong
    | .error e =>
      rw [hcount] at hcounts
      rcases hcounts with ⟨rfl, hback⟩ | ⟨rfl, hle⟩
      · exact List.mem_cons_of_mem _ hback
      · have hlong : 2 ^ 31 ≤ ('"' :: t).length := by
          rw [List.length_cons]
          omega
        exact Or.inr hlong
  · exact List.suffix_refl t

/-! ## Numbers -/

section Number

variable [Double D]

theorem readDigits_suffix (scale' : D → D) (acc : D × D) (t : Text) :
    (readDigits scale' acc t).2 <:+ t := by
  induction t generalizing acc with
  | nil => exact List.nil_suffix
  | cons c t ih =>
    rw [readDigits]
    split
    · exact (ih _).trans (List.suffix_cons c t)
    · exact List.suffix_refl _

theorem readZero_suffix (t : Text) : readZero t <:+ t := by
  unfold readZero
  split
  · exact List.suffix_cons _ _
  · exact List.suffix_refl _

theorem readWhole_suffix (t : Text) : (readWhole (D := D) t).2 <:+ t := by
  cases t with
  | nil => exact List.suffix_refl _
  | cons c t =>
    rw [readWhole]
    split
    · exact readDigits_suffix id _ _
    · exact List.suffix_refl _

/-- A number takes its first character at least. -/
theorem readWhole_shorter {c : Char} (hc : (c = '-' || c.isDigit) = true) (t : Text) :
    (readWhole (D := D) (readZero (readSign (c :: t)).2)).2 <:+ t := by
  unfold readSign
  split
  · rename_i heq
    cases heq
    exact (readWhole_suffix _).trans (readZero_suffix _)
  · rename_i hsign
    unfold readZero
    split
    · rename_i heq
      cases heq
      exact readWhole_suffix _
    · rename_i hzero
      have hne : c ≠ '-' := by
        rintro rfl
        exact hsign t rfl
      have hne' : c ≠ '0' := by
        rintro rfl
        exact hzero t rfl
      have hdigit : c.isDigit = true := by simpa [hne] using hc
      rw [readWhole, if_pos (by simp [hdigit, hne']), readDigits, if_pos hdigit]
      exact readDigits_suffix id _ _

theorem readFraction_suffix (acc : D × D) (t : Text) : (readFraction acc t).2 <:+ t := by
  unfold readFraction
  split
  · split
    · exact (readDigits_suffix _ _ _).trans (List.suffix_cons _ _)
    · exact List.suffix_refl _
  · exact List.suffix_refl _

theorem readSubscale_gives (he : 'e' ∈ value ∨ 'E' ∈ value) (ht : t <:+ value) (subscale : ℤ) :
    Gives value 0 (fun _ => True) (readSubscale subscale t) := by
  induction t generalizing subscale with
  | nil => exact .ok ht ht.length_le trivial
  | cons c t ih =>
    rw [readSubscale]
    split
    · split
      · exact ih ((List.suffix_cons c t).trans ht) _
      · exact Or.inl he
    · exact .ok ht ht.length_le trivial

theorem readExponent_gives (t : Text) : Gives t 0 (fun _ => True) (readExponent t) := by
  cases t with
  | nil => exact .ok (List.suffix_refl _) le_rfl trivial
  | cons c t =>
    rw [readExponent.eq_def]
    simp only
    split
    · rename_i he
      have hmem : 'e' ∈ c :: t ∨ 'E' ∈ c :: t := by
        rcases he with rfl | rfl
        · exact Or.inl List.mem_cons_self
        · exact Or.inr List.mem_cons_self
      have hsub : ∀ u, u <:+ t → u <:+ c :: t := fun u hu => hu.trans (List.suffix_cons c t)
      split
      · exact readSubscale_gives hmem (hsub _ (List.suffix_cons _ _)) 0
      · exact (readSubscale_gives hmem (hsub _ (List.suffix_cons _ _)) 0).bind (List.suffix_refl _)
          fun k rest hrest hlen _ => .ok hrest hlen trivial
      · exact readSubscale_gives hmem (hsub _ (List.suffix_refl _)) 0
    · exact .ok (List.suffix_refl _) le_rfl trivial

/-- What `parse_number` makes of a number. -/
def Rounded (valueint : ℤ) (valuedouble : D) : Prop := Double.toInt valuedouble = some valueint

theorem parseNumber_gives {c : Char} (hc : (c = '-' || c.isDigit) = true) (t : Text) :
    Gives (c :: t) 1 (Item.Formed (D := D) Rounded) (parseNumber (c :: t)) := by
  have hfraction : (readFraction (D := D) (readWhole (readZero (readSign (c :: t)).2)).1
      (readWhole (D := D) (readZero (readSign (c :: t)).2)).2).2 <:+ t :=
    (readFraction_suffix _ _).trans (readWhole_shorter hc t)
  refine (readExponent_gives _).bind (hfraction.trans (List.suffix_cons c t))
    fun k rest hrest hlen _ => ?_
  have hle := (hrest.trans hfraction).length_le
  dsimp only
  split
  · rename_i valueint hint
    exact .ok ((hrest.trans hfraction).trans (List.suffix_cons c t))
      (by rw [List.length_cons]; omega) hint
  · rw [Bool.or_eq_true, decide_eq_true_eq] at hc
    exact ⟨c, List.mem_cons_self, hc⟩

end Number

/-! ## Items -/

mutual

theorem Item.Formed.of_numbers {N N' : ℤ → D → Prop} (item : Item D) (h : item.Formed N)
    (h' : item.Numbers N') : item.Formed N' := by
  cases item with
  | null => trivial
  | false => trivial
  | true => trivial
  | number => exact h'
  | string => exact h
  | array child => exact Items.Unnamed.of_numbers child h h'
  | object child => exact Items.Named.of_numbers child h h'

theorem Items.Unnamed.of_numbers {N N' : ℤ → D → Prop} (child : Items D) (h : child.Unnamed N)
    (h' : child.Numbers N') : child.Unnamed N' := by
  cases child with
  | nil => trivial
  | cons string item next =>
    exact ⟨h.1, Item.Formed.of_numbers item h.2.1 h'.1, Items.Unnamed.of_numbers next h.2.2 h'.2⟩

theorem Items.Named.of_numbers {N N' : ℤ → D → Prop} (child : Items D) (h : child.Named N)
    (h' : child.Numbers N') : child.Named N' := by
  cases child with
  | nil => trivial
  | cons string item next =>
    exact ⟨h.1, Item.Formed.of_numbers item h.2.1 h'.1, Items.Named.of_numbers next h.2.2 h'.2⟩

end

section Item

variable [Double D] {steps : ℕ}

/-- With `steps` steps the functions of the parser come to an end on the texts that are short
enough. -/
structure EndsIn (D : Type) [Double D] (steps : ℕ) : Prop where
  value : ∀ t, 3 * t.length + 2 ≤ steps →
    Gives t 1 (fun item => '\x00' ∉ t → item.Formed Rounded) (parseValue (D := D) steps t)
  array : ∀ t, 3 * t.length + 1 ≤ steps →
    Gives t 1 (fun item => '\x00' ∉ t → item.Formed Rounded) (parseArray (D := D) steps t)
  entries : ∀ t, 3 * t.length + 3 ≤ steps →
    Gives t 1 (fun child => '\x00' ∉ t → child.Unnamed Rounded) (parseEntries (D := D) steps t)
  object : ∀ t, 3 * t.length + 1 ≤ steps →
    Gives t 1 (fun item => '\x00' ∉ t → item.Formed Rounded) (parseObject (D := D) steps t)
  members : ∀ t, 3 * t.length + 3 ≤ steps →
    Gives t 1 (fun child => '\x00' ∉ t → child.Named Rounded) (parseMembers (D := D) steps t)

theorem gives_word {w : Text} {a : α} (h : w.isPrefixOf t = true) (hw : 0 < w.length) (ha : P a) :
    Gives t 1 P (.ok (a, t.drop w.length)) := by
  obtain ⟨r, rfl⟩ := List.isPrefixOf_iff_prefix.mp h
  refine .ok (List.drop_suffix _ _) ?_ ha
  rw [List.drop_left, List.length_append]
  omega

theorem EndsIn.value_succ (h : EndsIn D steps) (t : Text) (hsteps : 3 * t.length + 2 ≤ steps + 1) :
    Gives t 1 (fun item => '\x00' ∉ t → item.Formed Rounded)
      (parseValue (D := D) (steps + 1) t) := by
  rw [parseValue.eq_def]
  dsimp only
  split
  · rename_i hword
    exact gives_word hword (by decide) fun _ => trivial
  split
  · rename_i hword
    exact gives_word hword (by decide) fun _ => trivial
  split
  · rename_i hword
    exact gives_word hword (by decide) fun _ => trivial
  cases t with
  | nil => exact List.suffix_refl _
  | cons c t =>
    dsimp only
    split
    · refine (parseString_gives (c :: t)).bind (List.suffix_refl _) fun v rest hrest hlen hv => ?_
      exact .ok hrest hlen fun hclean => ⟨v, rfl, hv hclean⟩
    · split
      · rename_i hnumber
        exact (parseNumber_gives hnumber t).mono (List.suffix_refl _) le_rfl fun _ h _ => h
      · split
        · exact h.array _ (by omega)
        · split
          · exact h.object _ (by omega)
          · exact List.suffix_refl _

theorem EndsIn.array_succ (h : EndsIn D steps) (t : Text) (hsteps : 3 * t.length + 1 ≤ steps + 1) :
    Gives t 1 (fun item => '\x00' ∉ t → item.Formed Rounded)
      (parseArray (D := D) (steps + 1) t) := by
  rw [parseArray.eq_def]
  dsimp only
  split
  · rename_i t
    have hskip := (skip_suffix t).trans (List.suffix_cons '[' t)
    have hshort := length_skip_le t
    rw [List.length_cons] at hsteps
    split
    · rename_i rest heq
      rw [heq] at hskip hshort
      rw [List.length_cons] at hshort
      exact .ok ((List.suffix_cons _ _).trans hskip) (by rw [List.length_cons]; omega)
        fun _ => trivial
    · refine (h.entries (skip t) (by omega)).bind hskip fun child rest hrest hlen hchild => ?_
      dsimp only
      refine .ok (hrest.trans hskip) (by rw [List.length_cons]; omega) fun hclean => ?_
      exact hchild fun hmem => hclean (hskip.subset hmem)
  · exact List.suffix_refl _

theorem EndsIn.object_succ (h : EndsIn D steps) (t : Text)
    (hsteps : 3 * t.length + 1 ≤ steps + 1) :
    Gives t 1 (fun item => '\x00' ∉ t → item.Formed Rounded)
      (parseObject (D := D) (steps + 1) t) := by
  rw [parseObject.eq_def]
  dsimp only
  split
  · rename_i t
    have hskip := (skip_suffix t).trans (List.suffix_cons '{' t)
    have hshort := length_skip_le t
    rw [List.length_cons] at hsteps
    split
    · rename_i rest heq
      rw [heq] at hskip hshort
      rw [List.length_cons] at hshort
      exact .ok ((List.suffix_cons _ _).trans hskip) (by rw [List.length_cons]; omega)
        fun _ => trivial
    · refine (h.members (skip t) (by omega)).bind hskip fun child rest hrest hlen hchild => ?_
      dsimp only
      refine .ok (hrest.trans hskip) (by rw [List.length_cons]; omega) fun hclean => ?_
      exact hchild fun hmem => hclean (hskip.subset hmem)
  · exact List.suffix_refl _

theorem EndsIn.entries_succ (h : EndsIn D steps) (t : Text)
    (hsteps : 3 * t.length + 3 ≤ steps + 1) :
    Gives t 1 (fun child => '\x00' ∉ t → child.Unnamed Rounded)
      (parseEntries (D := D) (steps + 1) t) := by
  have hshort := length_skip_le t
  rw [parseEntries]
  refine (h.value (skip t) (by omega)).bind (skip_suffix t) fun item rest hrest hlen hitem => ?_
  dsimp only
  have hin : skip rest <:+ t := ((skip_suffix rest).trans hrest).trans (skip_suffix t)
  have hless := length_skip_le rest
  have hformed : '\x00' ∉ t → item.Formed Rounded := fun hclean =>
    hitem fun hmem => hclean ((skip_suffix t).subset hmem)
  split
  · rename_i u heq
    rw [heq] at hin hless
    rw [List.length_cons] at hless
    have htail := (List.suffix_cons ',' u).trans hin
    refine (h.entries u (by omega)).bind htail fun next r hr hlen' hnext => ?_
    dsimp only
    refine .ok (hr.trans htail) (by omega) fun hclean => ?_
    exact ⟨rfl, hformed hclean, hnext fun hmem => hclean (htail.subset hmem)⟩
  · rename_i u heq
    rw [heq] at hin hless
    rw [List.length_cons] at hless
    exact .ok ((List.suffix_cons ']' u).trans hin) (by omega) fun hclean =>
      ⟨rfl, hformed hclean, trivial⟩
  · exact hin

theorem EndsIn.members_succ (h : EndsIn D steps) (t : Text)
    (hsteps : 3 * t.length + 3 ≤ steps + 1) :
    Gives t 1 (fun child => '\x00' ∉ t → child.Named Rounded)
      (parseMembers (D := D) (steps + 1) t) := by
  have hshort := length_skip_le t
  rw [parseMembers]
  refine (parseString_gives (skip t)).bind (skip_suffix t) fun v colon hcolon hlen hv => ?_
  have hin : skip colon <:+ t := ((skip_suffix colon).trans hcolon).trans (skip_suffix t)
  have hless := length_skip_le colon
  dsimp only
  split
  · rename_i u heq
    rw [heq] at hin hless
    rw [List.length_cons] at hless
    have htail := (List.suffix_cons ':' u).trans hin
    have hvalue := (skip_suffix u).trans htail
    have hshorter := length_skip_le u
    refine (h.value (skip u) (by omega)).bind hvalue fun item rest hrest hlen' hitem => ?_
    dsimp only
    have hend : skip rest <:+ t := ((skip_suffix rest).trans hrest).trans hvalue
    have hless' := length_skip_le rest
    have hname : '\x00' ∉ t → (∃ s, some v = some s ∧ '\x00' ∉ s) ∧ item.Formed Rounded :=
      fun hclean => ⟨⟨v, rfl, hv fun hmem => hclean ((skip_suffix t).subset hmem)⟩,
        hitem fun hmem => hclean (hvalue.subset hmem)⟩
    split
    · rename_i u' heq'
      rw [heq'] at hend hless'
      rw [List.length_cons] at hless'
      have htail' := (List.suffix_cons ',' u').trans hend
      refine (h.members u' (by omega)).bind htail' fun next r hr hlen'' hnext => ?_
      dsimp only
      refine .ok (hr.trans htail') (by omega) fun hclean => ?_
      exact ⟨(hname hclean).1, (hname hclean).2, hnext fun hmem => hclean (htail'.subset hmem)⟩
    · rename_i u' heq'
      rw [heq'] at hend hless'
      rw [List.length_cons] at hless'
      exact .ok ((List.suffix_cons '}' u').trans hend) (by omega) fun hclean =>
        ⟨(hname hclean).1, (hname hclean).2, trivial⟩
    · exact hend
  · exact hin

theorem endsIn (D : Type) [Double D] (steps : ℕ) : EndsIn D steps := by
  induction steps with
  | zero =>
    constructor
    all_goals
      intro t h
      omega
  | succ steps ih => exact ⟨ih.value_succ, ih.array_succ, ih.entries_succ, ih.object_succ,
      ih.members_succ⟩

theorem parseWithOpts_gives (value : Text) (requireNullTerminated : Bool) :
    Gives value 0 (fun item => '\x00' ∉ value → item.Formed Rounded)
      (parseWithOpts (D := D) value requireNullTerminated) := by
  have hshort := length_skip_le value
  refine ((endsIn D _).value (skip value) (by omega)).bind (skip_suffix value)
    fun item rest hrest hlen hitem => ?_
  have hformed : '\x00' ∉ value → item.Formed Rounded := fun hclean =>
    hitem fun hmem => hclean ((skip_suffix value).subset hmem)
  have hin := hrest.trans (skip_suffix value)
  dsimp only
  split
  · split
    · exact .ok List.nil_suffix (Nat.zero_le _) hformed
    · exact (skip_suffix rest).trans hin
  · exact .ok hin hin.length_le hformed

/-- **Parsing comes to an end**, whatever the text: with an item and a place behind it, with `ep` at
a place of the text, or with a fault: out of the memory of the text or of a string, for which there has
to be a backslash; with an `int` that leaves its range, for which there has to be an exponent or a text
of `2 ^ 31` characters; or with a number that no `int` can hold. -/
theorem parseWithOpts_ends (value : Text) (requireNullTerminated : Bool) :
    let result := parseWithOpts (D := D) value requireNullTerminated
    (∃ item rest, result = .ok (item, rest) ∧ rest <:+ value) ∨
      (∃ ep, result = .error (.malformed ep) ∧ ep <:+ value) ∨
      (result = .error (.fault .read) ∨ result = .error (.fault .write)) ∧ '\\' ∈ value ∨
      result = .error (.fault .overflow) ∧
        (('e' ∈ value ∨ 'E' ∈ value) ∨ 2 ^ 31 ≤ value.length) ∨
      result = .error (.fault .conversion) ∧ ∃ c ∈ value, c = '-' ∨ c.isDigit = true := by
  intro result
  have hgives : Gives value 0 _ result := parseWithOpts_gives value requireNullTerminated
  match result with
  | .ok (item, rest) => exact Or.inl ⟨item, rest, rfl, hgives.1.1⟩
  | .error (.malformed ep) => exact Or.inr (Or.inl ⟨ep, rfl, hgives⟩)
  | .error (.fault .read) => exact Or.inr (Or.inr (Or.inl ⟨Or.inl rfl, hgives⟩))
  | .error (.fault .write) => exact Or.inr (Or.inr (Or.inl ⟨Or.inr rfl, hgives⟩))
  | .error (.fault .overflow) => exact Or.inr (Or.inr (Or.inr (Or.inl ⟨rfl, hgives⟩)))
  | .error (.fault .conversion) => exact Or.inr (Or.inr (Or.inr (Or.inr ⟨rfl, hgives⟩)))
  | .error .steps => exact hgives.elim

/-! ## Parsing, printing and parsing again -/

/-- **What has been parsed is parsed again from what is printed for it**: an item that any text has
given, if its numbers are those of an `int`. -/
theorem print_parse {b fmt : Bool} {item : Item D} {rest : Text} (hclean : '\x00' ∉ value)
    (h : parseWithOpts value b = .ok (item, rest)) (hsmall : item.Numbers Small)
    (hprint : printValue item 0 fmt = .ok t) : parseWithOpts t true = .ok (item, []) := by
  have hgives := parseWithOpts_gives (D := D) value b
  rw [h] at hgives
  exact parseWithOpts_printed (Item.Formed.of_numbers item (hgives.2 hclean) hsmall) hprint

/-- `["q", -7]`, for what is no JSON: `["\q" ,-7]x` -/
def lenient : Item ℚ :=
  .array (.cons none (.string (some ['q'])) (.cons none (.number (-7) (Double.ofInt (-7))) .nil))

theorem print_parse_lenient :
    ∃ t, printValue lenient 0 true = .ok t ∧ parseWithOpts t true = .ok (lenient, []) := by
  have hparse : parseWithOpts ['[', '"', '\\', 'q', '"', ' ', ',', '-', '7', ']', 'x'] false =
      .ok (lenient, ['x']) := by decide +kernel
  have hprint : printValue lenient 0 true = .ok (valueText lenient 0 true) := by decide +kernel
  exact ⟨_, hprint, print_parse (by decide) hparse
    ⟨trivial, ⟨⟨by decide, by decide⟩, rfl⟩, trivial⟩ hprint⟩

end Item

end Wish.CJson
