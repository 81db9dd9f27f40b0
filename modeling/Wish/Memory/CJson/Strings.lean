import Wish.Memory.CJson
import Mathlib.Data.Nat.Bitwise

/-!
# `parse_string`

`memory/face++_pro/parseJson/cJSON.c`. A JSON string is a sequence of pieces, each of which stands
for some bytes (`Reads`): a byte for itself, a backslash with a letter, or `\u` with four digits, where
two such pieces may stand for one character. `parseString_spells`: whatever way a string is spelled,
`parse_string` returns its bytes, in the space that the first loop has counted. Two spellings are no
part of it: `\u0000`, which is dropped, and a string that an `int` cannot measure.
-/

namespace Wish.CJson

variable {c e : Char} {p v t rest : Text}

/-! ## Pieces -/

/-- The bytes `p` inside a string stand for `v`: the first loop leaves room for them, as far as its
`int` goes, and the second one writes them in one round. -/
structure Reads (p v : Text) : Prop where
  count : ∃ k, (v.length ≤ k ∧ k ≤ p.length) ∧ ∀ len rest, len + k < 2 ^ 31 →
    countString len (p ++ rest) = countString (len + k) rest
  fill : ∀ size steps rest out, out.length + v.length ≤ size →
    fillString size (steps + 1) (p ++ rest) out = fillString size steps rest (out ++ v)

theorem write_eq {size : ℕ} {out bytes : Text} (h : out.length + bytes.length ≤ size) :
    write size out bytes = .ok (out ++ bytes) := if_pos h

theorem int_eq {n : ℕ} (h : n < 2 ^ 31) : int n = .ok n := if_pos h

theorem countString_plain (hquote : c ≠ '"') (hback : c ≠ '\\') {len : ℕ}
    (hlen : len + 1 < 2 ^ 31) : countString len (c :: rest) = countString (len + 1) rest := by
  rw [countString]
  · rw [int_eq hlen]
    rfl
  all_goals simp [hquote, hback]

theorem countString_escape {len : ℕ} (hlen : len + 1 < 2 ^ 31) :
    countString len ('\\' :: c :: rest) = countString (len + 1) rest := by
  rw [countString, int_eq hlen]
  rfl

theorem fillString_plain (hquote : c ≠ '"') (hback : c ≠ '\\') (size steps : ℕ) (out : Text) :
    fillString size (steps + 1) (c :: rest) out =
      write size out [c] >>= fun out => fillString size steps rest out := by
  rw [fillString]
  all_goals simp [hquote, hback]

theorem reads_plain (hquote : c ≠ '"') (hback : c ≠ '\\') : Reads [c] [c] where
  count := ⟨1, ⟨le_rfl, le_rfl⟩, fun _ _ hlen => countString_plain hquote hback hlen⟩
  fill size steps rest out h := by
    rw [List.singleton_append, fillString_plain hquote hback, write_eq h]
    rfl

/-- The second loop at a backslash. -/
theorem fillString_escape {size steps : ℕ} {ptr rest out bytes : Text}
    (hu : unescape ptr = .ok (bytes, rest)) (h : out.length + bytes.length ≤ size) :
    fillString size (steps + 1) ('\\' :: ptr) out = fillString size steps rest (out ++ bytes) := by
  rw [fillString, hu]
  simp only [bind, Except.bind, write_eq h]

theorem reads_escape (hu : ∀ rest, unescape (e :: rest) = .ok ([c], rest)) :
    Reads ['\\', e] [c] where
  count := ⟨1, ⟨le_rfl, Nat.le_succ 1⟩, fun _ _ hlen => countString_escape hlen⟩
  fill _ _ rest _ h := fillString_escape (hu rest) h

theorem reads_shortEscape (h : shortEscape c = some e) : Reads ['\\', e] [c] := by
  unfold shortEscape at h
  split at h <;> cases h
  all_goals exact reads_escape fun rest => rfl

/-! ## Four digits -/

/-- Four hexadecimal digits, in either case, and their value. -/
inductive Hex4 : Text → ℕ → Prop
  | digits {a b c d : Char} {x y z w : ℕ} (ha : hexValue a = some x) (hb : hexValue b = some y)
    (hc : hexValue c = some z) (hd : hexValue d = some w) :
    Hex4 [a, b, c, d] (((x * 16 + y) * 16 + z) * 16 + w)

theorem hexValue_lt {x : ℕ} (h : hexValue c = some x) : x < 16 := by
  unfold hexValue at h
  split at h
  · rename_i hc
    cases h
    have := hc.2
    have : c.toNat ≤ 57 := this
    omega
  · split at h
    · rename_i hc
      cases h
      have hle : c.toNat ≤ 70 := hc.2
      omega
    · split at h
      · rename_i hc
        cases h
        have hle : c.toNat ≤ 102 := hc.2
        omega
      · cases h

theorem hexValue_plain {x : ℕ} (h : hexValue c = some x) : c ≠ '"' ∧ c ≠ '\\' := by
  constructor
  all_goals
    rintro rfl
    simp [hexValue] at h

theorem Hex4.length {h : Text} {uc : ℕ} (hh : Hex4 h uc) : h.length = 4 := by
  cases hh with
  | digits => rfl

theorem Hex4.value {h : Text} {uc : ℕ} (hh : Hex4 h uc) (rest : Text) :
    parseHex4 (h ++ rest) = uc := by
  cases hh with
  | digits ha hb hc hd => simp [parseHex4, hexFrom, ha, hb, hc, hd, Nat.shiftLeft_eq]

theorem Hex4.lt {h : Text} {uc : ℕ} (hh : Hex4 h uc) : uc < 2 ^ 16 := by
  cases hh with
  | digits ha hb hc hd =>
    have hx := hexValue_lt ha
    have hy := hexValue_lt hb
    have hz := hexValue_lt hc
    have hw := hexValue_lt hd
    omega

theorem Hex4.count {h : Text} {uc : ℕ} (hh : Hex4 h uc) {len : ℕ} (hlen : len + 4 < 2 ^ 31)
    (rest : Text) : countString len (h ++ rest) = countString (len + 4) rest := by
  cases hh with
  | digits ha hb hc hd =>
    simp only [List.cons_append, List.nil_append]
    rw [countString_plain (hexValue_plain ha).1 (hexValue_plain ha).2 (by omega),
      countString_plain (hexValue_plain hb).1 (hexValue_plain hb).2 (by omega),
      countString_plain (hexValue_plain hc).1 (hexValue_plain hc).2 (by omega),
      countString_plain (hexValue_plain hd).1 (hexValue_plain hd).2 hlen]

theorem Hex4.advance {h : Text} {uc : ℕ} (hh : Hex4 h uc) : advance 4 (h ++ rest) = .ok rest := by
  rw [CJson.advance, if_pos (by simp [hh.length]), List.drop_left' hh.length]

/-! ## UTF-8 -/

/-- The bytes of a character. -/
def utf8 (c : Char) : Text := (String.utf8EncodeChar c).map fun b => Char.ofNat b.toNat

/-- `(uc | 0x80) & 0xBF` -/
theorem continuation (uc : ℕ) : (uc ||| 0x80) &&& 0xBF = uc % 64 + 128 := by
  have hhigh : (uc ||| 0x80) &&& 0x80 = 0x80 := by
    refine Nat.eq_of_testBit_eq fun i => ?_
    rw [Nat.testBit_and, Nat.testBit_or]
    cases uc.testBit i <;> simp
  have hlow : (uc ||| 0x80) &&& 0x3F = uc % 64 := by
    have hmod : uc &&& 0x3F = uc % 64 := Nat.and_two_pow_sub_one_eq_mod uc 6
    rw [Nat.and_or_distrib_right, hmod]
    simp
  have hlt : uc % 64 < 2 ^ 6 := Nat.mod_lt _ (by decide)
  have hsum : 128 + uc % 64 = 128 ||| uc % 64 := Nat.two_pow_add_eq_or_of_lt hlt 2
  have hsplit : 0xBF = 0x80 ||| 0x3F := rfl
  rw [hsplit, Nat.and_or_distrib_left, hhigh, hlow, ← hsum, Nat.add_comm]

/-- `uc | firstByteMark[len]` -/
theorem or_mark {uc k : ℕ} (m : ℕ) (h : uc < 2 ^ k) : uc ||| 2 ^ k * m = uc + 2 ^ k * m := by
  rw [Nat.or_comm, ← Nat.two_pow_add_eq_or_of_lt h, Nat.add_comm]

theorem encodeBytes_succ (len mark uc : ℕ) : encodeBytes (len + 2) mark uc =
    encodeBytes (len + 1) mark (uc / 64) ++ [byte (uc % 64 + 128)] := by
  rw [encodeBytes, continuation, Nat.shiftRight_eq_div_pow]

theorem encodeBytes_two (mark uc : ℕ) : encodeBytes 2 mark uc =
    [byte (uc / 64 ||| mark), byte (uc % 64 + 128)] := encodeBytes_succ 0 mark uc

theorem encodeBytes_three (mark uc : ℕ) : encodeBytes 3 mark uc =
    [byte (uc / 64 / 64 ||| mark), byte (uc / 64 % 64 + 128), byte (uc % 64 + 128)] := by
  rw [encodeBytes_succ 1, encodeBytes_two]
  rfl

theorem encodeBytes_four (mark uc : ℕ) : encodeBytes 4 mark uc =
    [byte (uc / 64 / 64 / 64 ||| mark), byte (uc / 64 / 64 % 64 + 128),
      byte (uc / 64 % 64 + 128), byte (uc % 64 + 128)] := by
  rw [encodeBytes_succ 2, encodeBytes_three]
  rfl

theorem byte_eq (n : ℕ) : Char.ofNat (UInt8.ofNat n).toNat = byte n := rfl

theorem val_lt (c : Char) : c.val.toNat < 0x110000 := by
  rcases c.valid with h | ⟨-, h⟩
  · exact lt_trans h (by decide)
  · exact h

/-- The bytes of a code point, by how many they are. -/
theorem encode_cases {v : ℕ} (hlt : v < 0x110000) :
    (v < 0x80 ∧ encode v = [byte v]) ∨
    (0x80 ≤ v ∧ v < 0x800 ∧ encode v = [byte (v / 64 + 192), byte (v % 64 + 128)]) ∨
    (0x800 ≤ v ∧ v < 0x10000 ∧
      encode v = [byte (v / 4096 + 224), byte (v / 64 % 64 + 128), byte (v % 64 + 128)]) ∨
    (0x10000 ≤ v ∧ encode v = [byte (v / 262144 + 240), byte (v / 4096 % 64 + 128),
      byte (v / 64 % 64 + 128), byte (v % 64 + 128)]) := by
  have hdiv : v / 64 / 64 = v / 4096 := Nat.div_div_eq_div_mul v 64 64
  have hdiv' : v / 4096 / 64 = v / 262144 := Nat.div_div_eq_div_mul v 4096 64
  unfold encode
  by_cases h1 : v < 0x80
  · exact Or.inl ⟨h1, by simp [h1, encodeBytes, firstByteMark]⟩
  by_cases h2 : v < 0x800
  · have hmark : v / 64 ||| 192 = v / 64 + 192 := or_mark 6 (show v / 64 < 2 ^ 5 by omega)
    refine Or.inr (Or.inl ⟨by omega, h2, ?_⟩)
    simp only [h1, h2, if_true, if_false, encodeBytes_two, firstByteMark, hmark]
  by_cases h3 : v < 0x10000
  · have hmark : v / 4096 ||| 224 = v / 4096 + 224 := or_mark 14 (show v / 4096 < 2 ^ 4 by omega)
    refine Or.inr (Or.inr (Or.inl ⟨by omega, h3, ?_⟩))
    simp only [h1, h2, h3, if_true, if_false, encodeBytes_three, firstByteMark, hdiv, hmark]
  · have hmark : v / 262144 ||| 240 = v / 262144 + 240 :=
      or_mark 30 (show v / 262144 < 2 ^ 3 by omega)
    refine Or.inr (Or.inr (Or.inr ⟨by omega, ?_⟩))
    simp only [h1, h2, h3, if_false, encodeBytes_four, firstByteMark, hdiv, hdiv', hmark]

/-- The encoding of `parse_string` is UTF-8. -/
theorem encode_eq_utf8 (c : Char) : encode c.toNat = utf8 c := by
  have hlt := val_lt c
  rw [Char.toNat]
  unfold utf8 String.utf8EncodeChar
  generalize c.val.toNat = v at hlt
  rcases encode_cases hlt with ⟨h, he⟩ | ⟨h, h', he⟩ | ⟨h, h', he⟩ | ⟨h, he⟩
  · have hle : v ≤ 127 := by omega
    simp only [he, hle, if_true, List.map_cons, List.map_nil, byte_eq]
  · have hle : ¬ v ≤ 127 := by omega
    have hle' : v ≤ 2047 := by omega
    have hmod : v / 64 % 32 = v / 64 := by omega
    simp only [he, hle, hle', if_true, if_false, hmod, List.map_cons, List.map_nil, byte_eq]
  · have hle : ¬ v ≤ 127 := by omega
    have hle' : ¬ v ≤ 2047 := by omega
    have hle'' : v ≤ 65535 := by omega
    have hmod : v / 4096 % 16 = v / 4096 := by omega
    simp only [he, hle, hle', hle'', if_true, if_false, hmod, List.map_cons, List.map_nil, byte_eq]
  · have hle : ¬ v ≤ 127 := by omega
    have hle' : ¬ v ≤ 2047 := by omega
    have hle'' : ¬ v ≤ 65535 := by omega
    have hmod : v / 262144 % 8 = v / 262144 := by omega
    simp only [he, hle, hle', hle'', if_false, hmod, List.map_cons, List.map_nil, byte_eq]

theorem toNat_byte {k : ℕ} (h : k < 256) : (byte k).toNat = k := by
  have hvalid : k.isValidChar := Or.inl (by omega)
  rw [byte, Nat.mod_eq_of_lt h, Char.ofNat, dif_pos hvalid]
  rfl

/-- A character is its own byte, or all its bytes are above 127. -/
theorem utf8_bytes (c : Char) :
    c.toNat < 128 ∧ utf8 c = [c] ∨ 128 ≤ c.toNat ∧ ∀ b ∈ utf8 c, 128 ≤ b.toNat := by
  have hlt : c.toNat < 0x110000 := val_lt c
  rw [← encode_eq_utf8]
  have hhigh : ∀ k, 128 ≤ k → k < 256 → 128 ≤ (byte k).toNat := fun k h h' => by
    rw [toNat_byte h']
    exact h
  rcases encode_cases hlt with ⟨h, he⟩ | ⟨h, h', he⟩ | ⟨h, h', he⟩ | ⟨h, he⟩
  · refine Or.inl ⟨h, ?_⟩
    rw [he, byte, Nat.mod_eq_of_lt (by omega), Char.ofNat_toNat]
  · refine Or.inr ⟨by omega, ?_⟩
    rw [he]
    simp only [List.mem_cons, List.not_mem_nil, or_false]
    rintro b (rfl | rfl)
    all_goals exact hhigh _ (by omega) (by omega)
  · refine Or.inr ⟨by omega, ?_⟩
    rw [he]
    simp only [List.mem_cons, List.not_mem_nil, or_false]
    rintro b (rfl | rfl | rfl)
    all_goals exact hhigh _ (by omega) (by omega)
  · refine Or.inr ⟨by omega, ?_⟩
    rw [he]
    simp only [List.mem_cons, List.not_mem_nil, or_false]
    rintro b (rfl | rfl | rfl | rfl)
    all_goals exact hhigh _ (by omega) (by omega)

theorem length_encode_le (uc : ℕ) : (encode uc).length ≤ 4 := by
  unfold encode
  split
  · exact (by decide : 1 ≤ 4)
  · split
    · rw [encodeBytes_two]; exact (by decide : 2 ≤ 4)
    · split
      · rw [encodeBytes_three]; exact (by decide : 3 ≤ 4)
      · rw [encodeBytes_four]; exact (by decide : 4 ≤ 4)

/-! ## `\u` -/

theorem reads_unit {h : Text} {uc : ℕ} (hh : Hex4 h uc) (hpos : uc ≠ 0)
    (hlow : ¬(0xDC00 ≤ uc ∧ uc ≤ 0xDFFF)) (hhigh : ¬(0xD800 ≤ uc ∧ uc ≤ 0xDBFF)) :
    Reads ('\\' :: 'u' :: h) (encode uc) where
  count := by
    refine ⟨5, ⟨(length_encode_le uc).trans (by decide), ?_⟩, fun len rest hlen => ?_⟩
    · simp [hh.length]
    · rw [List.cons_append, List.cons_append, countString_escape (by omega), hh.count hlen]
  fill size steps rest out hout := by
    refine fillString_escape ?_ hout
    have htrans : transcode (h ++ rest) = .ok (encode uc, rest) := by
      simp only [transcode, hh.value, hh.advance, bind, Except.bind]
      rw [if_neg (by simp [hpos, hlow]), if_neg hhigh]
      rfl
    exact htrans

/-- The code point of two units. -/
theorem combine {uc uc2 : ℕ} (h : 0xD800 ≤ uc ∧ uc ≤ 0xDBFF) (h2 : 0xDC00 ≤ uc2 ∧ uc2 ≤ 0xDFFF) :
    ((uc &&& 0x3FF) <<< 10) ||| (uc2 &&& 0x3FF) = (uc - 0xD800) * 1024 + (uc2 - 0xDC00) := by
  have hand : ∀ x, x &&& 0x3FF = x % 1024 := fun x => Nat.and_two_pow_sub_one_eq_mod x 10
  have hlt : uc2 % 1024 < 2 ^ 10 := Nat.mod_lt _ (by decide)
  rw [hand, hand, Nat.shiftLeft_eq, Nat.mul_comm, ← Nat.two_pow_add_eq_or_of_lt hlt]
  omega

theorem reads_pair {h h2 : Text} {uc uc2 : ℕ} (hh : Hex4 h uc) (hh2 : Hex4 h2 uc2)
    (hhigh : 0xD800 ≤ uc ∧ uc ≤ 0xDBFF) (hlow : 0xDC00 ≤ uc2 ∧ uc2 ≤ 0xDFFF) :
    Reads ('\\' :: 'u' :: (h ++ '\\' :: 'u' :: h2))
      (encode (0x10000 + (uc - 0xD800) * 1024 + (uc2 - 0xDC00))) where
  count := by
    refine ⟨10, ⟨(length_encode_le _).trans (by decide), ?_⟩, fun len rest hlen => ?_⟩
    · simp [hh.length, hh2.length]
    · simp only [List.cons_append, List.append_assoc]
      rw [countString_escape (by omega), hh.count (by omega), countString_escape (by omega),
        hh2.count hlen]
  fill size steps rest out hout := by
    refine fillString_escape ?_ hout
    have htrans : transcode (h ++ '\\' :: 'u' :: (h2 ++ rest)) =
        .ok (encode (0x10000 + (uc - 0xD800) * 1024 + (uc2 - 0xDC00)), rest) := by
      simp only [transcode, hh.value, hh.advance, hh2.value, hh2.advance, bind, Except.bind,
        combine hhigh hlow]
      rw [if_neg (by omega), if_pos hhigh, if_neg (by omega), Nat.add_assoc]
      rfl
    rw [← htrans]
    simp [unescape]

/-! ## Strings of pieces -/

/-- Pieces one after the other. -/
structure Pieces (ps : List (Text × Text)) : Prop where
  reads : ∀ q ∈ ps, Reads q.1 q.2
  nonempty : ∀ q ∈ ps, q.1 ≠ []

theorem Pieces.tail {q : Text × Text} {ps : List (Text × Text)} (h : Pieces (q :: ps)) :
    Pieces ps :=
  ⟨fun q hq => h.reads q (List.mem_cons_of_mem _ hq),
    fun q hq => h.nonempty q (List.mem_cons_of_mem _ hq)⟩

theorem Pieces.nil : Pieces [] where
  reads _ hq := absurd hq List.not_mem_nil
  nonempty _ hq := absurd hq List.not_mem_nil

theorem Pieces.cons {ps : List (Text × Text)} (h : Reads p v) (hne : p ≠ []) (hps : Pieces ps) :
    Pieces ((p, v) :: ps) where
  reads q hq := by
    rcases List.mem_cons.mp hq with rfl | hq
    · exact h
    · exact hps.reads q hq
  nonempty q hq := by
    rcases List.mem_cons.mp hq with rfl | hq
    · exact hne
    · exact hps.nonempty q hq

/-- The first loop over pieces, up to the quote. -/
theorem countString_pieces {ps : List (Text × Text)} (h : Pieces ps) (len : ℕ) (rest : Text)
    (hlen : len + (ps.flatMap Prod.fst).length < 2 ^ 31) :
    ∃ k, ((ps.flatMap Prod.snd).length ≤ k ∧ k ≤ (ps.flatMap Prod.fst).length) ∧
      countString len (ps.flatMap Prod.fst ++ '"' :: rest) = .ok (len + k) := by
  induction ps generalizing len with
  | nil => exact ⟨0, ⟨le_rfl, le_rfl⟩, rfl⟩
  | cons q ps ih =>
    obtain ⟨k, ⟨hlow, hhigh⟩, hcount⟩ := (h.reads q List.mem_cons_self).count
    simp only [List.flatMap_cons, List.length_append] at hlen ⊢
    obtain ⟨m, hm, hrest⟩ := ih h.tail (len + k) (by omega)
    refine ⟨k + m, by omega, ?_⟩
    rw [List.append_assoc, hcount len _ (by omega), hrest, Nat.add_assoc]

/-- The second loop over pieces. -/
theorem fillString_pieces {ps : List (Text × Text)} (h : Pieces ps) {size steps : ℕ}
    {out rest : Text} (hsteps : ps.length < steps)
    (hsize : out.length + (ps.flatMap Prod.snd).length < size) :
    fillString size steps (ps.flatMap Prod.fst ++ '"' :: rest) out =
      .ok (out ++ ps.flatMap Prod.snd, rest) := by
  induction ps generalizing out steps with
  | nil =>
    obtain ⟨steps, rfl⟩ := Nat.exists_eq_add_one_of_ne_zero (Nat.ne_of_gt hsteps)
    have hwrite : write size out ['\x00'] = .ok (out ++ ['\x00']) := write_eq (by simpa using hsize)
    simp [fillString, hwrite, bind, Except.bind]
    rfl
  | cons q ps ih =>
    obtain ⟨steps, rfl⟩ := Nat.exists_eq_add_of_le' (Nat.one_le_of_lt hsteps)
    simp only [List.flatMap_cons, List.length_append, List.length_cons] at hsize hsteps
    rw [List.flatMap_cons, List.flatMap_cons, List.append_assoc,
      (h.reads q List.mem_cons_self).fill _ _ _ _ (by omega),
      ih h.tail (by omega) (by rw [List.length_append]; omega), List.append_assoc]

theorem Pieces.length_le {ps : List (Text × Text)} (h : Pieces ps) :
    ps.length ≤ (ps.flatMap Prod.fst).length := by
  induction ps with
  | nil => exact le_rfl
  | cons q ps ih =>
    have hpos := List.length_pos_iff.mpr (h.nonempty q List.mem_cons_self)
    have hle := ih h.tail
    simp only [List.flatMap_cons, List.length_append, List.length_cons]
    omega

theorem parseString_pieces {ps : List (Text × Text)} (h : Pieces ps) (rest : Text)
    (hlen : (ps.flatMap Prod.fst).length + 1 < 2 ^ 31) :
    parseString ('"' :: (ps.flatMap Prod.fst ++ '"' :: rest)) =
      .ok (ps.flatMap Prod.snd, rest) := by
  obtain ⟨k, ⟨hlow, hhigh⟩, hcount⟩ := countString_pieces h 0 rest (by omega)
  have hint : int (0 + k + 1) = .ok (0 + k + 1) := int_eq (by omega)
  have hfill : fillString (0 + k + 1) ((ps.flatMap Prod.fst ++ '"' :: rest).length + 1)
      (ps.flatMap Prod.fst ++ '"' :: rest) [] = .ok ([] ++ ps.flatMap Prod.snd, rest) := by
    have hle := h.length_le
    refine fillString_pieces h ?_ ?_
    · rw [List.length_append]
      omega
    · rw [List.length_nil]
      omega
  simp only [parseString, hcount, bind, Except.bind, hint, hfill, List.nil_append]

/-! ## The spellings of a string -/

/-- What may stand between the quotes of a JSON string, and the bytes that it stands for; without
`\u0000`, which no C string can hold. -/
inductive Spells : Text → Text → Prop
  | nil : Spells [] []
  | raw {t v : Text} (c : Char) (hquote : c ≠ '"') (hback : c ≠ '\\') (h : Spells t v) :
    Spells (c :: t) (c :: v)
  | short {t v : Text} (c e : Char) (he : shortEscape c = some e) (h : Spells t v) :
    Spells ('\\' :: e :: t) (c :: v)
  | slash {t v : Text} (h : Spells t v) : Spells ('\\' :: '/' :: t) ('/' :: v)
  /-- `\uXXXX` -/
  | unit {t v digits : Text} (c : Char) (hd : Hex4 digits c.toNat) (hc : c ≠ '\x00')
    (h : Spells t v) : Spells ('\\' :: 'u' :: digits ++ t) (utf8 c ++ v)
  /-- the surrogates of a character above `\uFFFF` -/
  | pair {t v high low : Text} (c : Char) (hhigh : Hex4 high (0xD800 + (c.toNat - 0x10000) / 1024))
    (hlow : Hex4 low (0xDC00 + (c.toNat - 0x10000) % 1024)) (hc : 0x10000 ≤ c.toNat)
    (h : Spells t v) : Spells ('\\' :: 'u' :: (high ++ '\\' :: 'u' :: low) ++ t) (utf8 c ++ v)

theorem toNat_ne_zero (h : c ≠ '\x00') : c.toNat ≠ 0 := fun h0 => h (Char.toNat_inj.mp h0)

/-- A character is no surrogate. -/
theorem not_surrogate (c : Char) : c.toNat < 0xD800 ∨ 0xDFFF < c.toNat := by
  rcases c.valid with h | ⟨h, -⟩
  · exact Or.inl h
  · exact Or.inr h

theorem Spells.pieces (h : Spells t v) :
    ∃ ps, Pieces ps ∧ ps.flatMap Prod.fst = t ∧ ps.flatMap Prod.snd = v := by
  -- one piece more
  have hcons : ∀ {p t b v : Text}, Reads p b → p ≠ [] →
      (∃ ps, Pieces ps ∧ ps.flatMap Prod.fst = t ∧ ps.flatMap Prod.snd = v) →
      ∃ ps, Pieces ps ∧ ps.flatMap Prod.fst = p ++ t ∧ ps.flatMap Prod.snd = b ++ v := by
    rintro p t b v hp hne ⟨ps, hps, rfl, rfl⟩
    exact ⟨(p, b) :: ps, hps.cons hp hne, rfl, rfl⟩
  induction h with
  | nil => exact ⟨[], .nil, rfl, rfl⟩
  | raw c hquote hback h ih => exact hcons (reads_plain hquote hback) (List.cons_ne_nil _ _) ih
  | short c e he h ih => exact hcons (reads_shortEscape he) (List.cons_ne_nil _ _) ih
  | slash h ih => exact hcons (reads_escape fun _ => rfl) (List.cons_ne_nil _ _) ih
  | unit c hd hc h ih =>
    have hlt := hd.lt
    have hsurrogate := not_surrogate c
    have hreads := reads_unit hd (toNat_ne_zero hc) (by omega) (by omega)
    rw [encode_eq_utf8] at hreads
    exact hcons hreads (List.cons_ne_nil _ _) ih
  | pair c hhigh hlow hc h ih =>
    have hlt : c.toNat < 0x110000 := val_lt c
    have hreads := reads_pair hhigh hlow (by omega) (by omega)
    have hcode : 0x10000 + (0xD800 + (c.toNat - 0x10000) / 1024 - 0xD800) * 1024 +
        (0xDC00 + (c.toNat - 0x10000) % 1024 - 0xDC00) = c.toNat := by omega
    rw [hcode, encode_eq_utf8] at hreads
    exact hcons hreads (List.cons_ne_nil _ _) ih

/-- `parse_string` reads what is spelled: the bytes that stand for themselves, the letters
behind a backslash, and the UTF-8 encoding of what is written as `\u`; neither loop leaves its
memory, nor `len` the range of an `int`. -/
theorem parseString_spells (h : Spells t v) (rest : Text) (hlen : t.length + 1 < 2 ^ 31) :
    parseString ('"' :: (t ++ '"' :: rest)) = .ok (v, rest) := by
  obtain ⟨ps, hps, rfl, rfl⟩ := h.pieces
  exact parseString_pieces hps rest hlen

/-- `"\u00e9\ud83D\uDE00\n"`, in the middle of a text -/
example :
    parseString ['"', '\\', 'u', '0', '0', 'e', '9', '\\', 'u', 'd', '8', '3', 'D', '\\', 'u', 'D',
      'E', '0', '0', '\\', 'n', '"', ','] =
    .ok (['\xc3', '\xa9', '\xf0', '\x9f', '\x98', '\x80', '\n'], [',']) := rfl

end Wish.CJson
