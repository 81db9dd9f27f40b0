import Mathlib.Algebra.Group.Int.Defs
import Mathlib.Data.Nat.Digits.Lemmas
import Mathlib.Data.Rat.Floor

/-!
# cJSON

`memory/face++_pro/parseJson/cJSON.c`: a JSON text is parsed into a tree of items, and a tree of
items is printed, with white space (`fmt`) or without.

A `char` is a `Char` below 256, and a C string is the list of what stands before its NUL. A pointer
into a text is what is left of it from there: reading at the end of the list reads the NUL, and
going on from there is a fault. Memory is never short. The numbers of the type `double` are a
parameter; all that is asked of them is that they are exact on small integers (`Double`).

`parse_string` and the printers add up in an `int` how much they are going to write, and write it in
a second loop that does not look at the size any more, so that both have their faults (`Fault`).
-/

namespace Wish.CJson

/-- A C string up to its NUL. -/
abbrev Text := List Char

inductive Fault where
  /-- a read behind the NUL of the text -/
  | read
  /-- a write behind the end of what has been allocated -/
  | write
  /-- an `int` leaves its range -/
  | overflow
  /-- a `double` that is out of the range of an `int` is made one -/
  | conversion
  deriving DecidableEq, Repr

inductive Failure where
  /-- the function returns 0 with `ep` set -/
  | malformed (ep : Text)
  | fault (f : Fault)
  /-- the model has not been given enough steps -/
  | steps
  deriving DecidableEq, Repr

abbrev Result (α : Type) := Except Failure α

/-- What is computed as an `int`, or stored in one. -/
def int (n : ℕ) : Result ℕ := if n < 2 ^ 31 then .ok n else .error (.fault .overflow)

/-- The formats given to `sprintf` for a number that is no small integer. -/
inductive Format where
  /-- `%.0f` -/
  | whole
  /-- `%e` -/
  | exponent
  /-- `%f` -/
  | fraction
  deriving DecidableEq, Repr

/-- The type `double`, with the functions of `math.h` that are used. -/
class Double (D : Type) where
  ofInt : ℤ → D
  /-- `(int)`, which is only defined for what is in the range of an `int` -/
  toInt : D → Option ℤ
  add : D → D → D
  sub : D → D → D
  mul : D → D → D
  pow : D → D → D
  fabs : D → D
  floor : D → D
  le : D → D → Bool
  lt : D → D → Bool
  /-- `DBL_EPSILON`, `1.0e60`, `1.0e-6` and `1.0e9` -/
  epsilon : D
  e60 : D
  eMinus6 : D
  e9 : D
  sprintf : Format → D → Text
  toInt_ofInt : ∀ i : ℤ, -2 ^ 31 ≤ i → i < 2 ^ 31 → toInt (ofInt i) = some i
  add_ofInt : ∀ i j : ℤ, 0 ≤ i → 0 ≤ j → i + j < 2 ^ 53 →
    add (ofInt i) (ofInt j) = ofInt (i + j)
  mul_ofInt : ∀ i j : ℤ, 0 ≤ i ∧ 0 ≤ j ∨ i * j ≠ 0 → (i * j).natAbs < 2 ^ 53 →
    mul (ofInt i) (ofInt j) = ofInt (i * j)
  pow_zero : ∀ d, pow d (ofInt 0) = ofInt 1
  le_ofInt : ∀ i j : ℤ, i.natAbs < 2 ^ 53 → j.natAbs < 2 ^ 53 → i ≤ j →
    le (ofInt i) (ofInt j) = true
  fabs_sub_self : ∀ i : ℤ, i.natAbs < 2 ^ 53 →
    le (fabs (sub (ofInt i) (ofInt i))) epsilon = true

variable {D : Type}

/-- The digits of `%d`. -/
def printInt (i : ℤ) : Text :=
  if i < 0 then '-' :: Nat.toDigits 10 i.natAbs else Nat.toDigits 10 i.natAbs

/-- Rational numbers in the place of doubles: as exact on small integers, and printed as what is
below them. -/
instance : Double ℚ where
  ofInt i := i
  toInt q :=
    if -2 ^ 31 ≤ q.num.tdiv q.den ∧ q.num.tdiv q.den < 2 ^ 31 then some (q.num.tdiv q.den)
    else none
  add x y := x + y
  sub x y := x - y
  mul x y := x * y
  pow x y := x ^ ⌊y⌋
  fabs x := |x|
  floor x := ⌊x⌋
  le x y := decide (x ≤ y)
  lt x y := decide (x < y)
  epsilon := 1 / 2 ^ 52
  e60 := 10 ^ 60
  eMinus6 := 1 / 10 ^ 6
  e9 := 10 ^ 9
  sprintf _ x := printInt ⌊x⌋
  toInt_ofInt i hlow hhigh := by simpa using ⟨hlow, hhigh⟩
  add_ofInt i j _ _ _ := by simp
  mul_ofInt i j _ _ := by simp
  pow_zero d := by simp
  le_ofInt i j _ _ h := by simpa using h
  fabs_sub_self i _ := by simp

mutual

/-- A `cJSON` by its type. -/
inductive Item (D : Type) where
  | null
  | false
  | true
  | number (valueint : ℤ) (valuedouble : D)
  | string (valuestring : Option Text)
  | array (child : Items D)
  | object (child : Items D)

/-- The children of an item along `next`, each with its `string`. -/
inductive Items (D : Type) where
  | nil
  | cons (string : Option Text) (item : Item D) (next : Items D)

end

deriving instance DecidableEq for Item, Items

def nullText : Text := ['n', 'u', 'l', 'l']

def falseText : Text := ['f', 'a', 'l', 's', 'e']

def trueText : Text := ['t', 'r', 'u', 'e']

/-! ## Rendering -/

/-- The number is printed as the `int`. -/
def isInt [Double D] (valueint : ℤ) (d : D) : Bool :=
  Double.le (Double.fabs (Double.sub (Double.ofInt valueint) d)) Double.epsilon &&
    Double.le d (Double.ofInt (2 ^ 31 - 1)) && Double.le (Double.ofInt (-2 ^ 31)) d

/-- What `print_number` writes. -/
def numberText [Double D] (valueint : ℤ) (d : D) : Text :=
  if isInt valueint d then printInt valueint
  else if Double.le (Double.fabs (Double.sub (Double.floor d) d)) Double.epsilon &&
      Double.lt (Double.fabs d) Double.e60 then
    Double.sprintf .whole d
  else if Double.lt (Double.fabs d) Double.eMinus6 || Double.lt Double.e9 (Double.fabs d) then
    Double.sprintf .exponent d
  else Double.sprintf .fraction d

/-- A text is written with its NUL, into a buffer of `size`. -/
def place (size : ℕ) (t : Text) : Result Text :=
  if t.length + 1 ≤ size then .ok t else .error (.fault .write)

/-- `cJSON_strdup` -/
def strdup (str : Text) : Result Text := place (str.length + 1) str

/-- `print_number` -/
def printNumber [Double D] (valueint : ℤ) (d : D) : Result Text :=
  place (if isInt valueint d then 21 else 64) (numberText valueint d)

/-- A digit of `%x`. -/
def hexDigit (n : ℕ) : Char := if n < 10 then Char.ofNat (48 + n) else Char.ofNat (87 + n)

/-- `%04x` for a value below `2 ^ 16` -/
def hex4 (n : ℕ) : Text :=
  [hexDigit (n / 4096 % 16), hexDigit (n / 256 % 16), hexDigit (n / 16 % 16), hexDigit (n % 16)]

/-- The characters of `"\"\\\b\f\n\r\t"` with the letters that stand for them. -/
def shortEscape : Char → Option Char
  | '\\' => some '\\'
  | '"' => some '"'
  | '\x08' => some 'b'
  | '\x0c' => some 'f'
  | '\n' => some 'n'
  | '\r' => some 'r'
  | '\t' => some 't'
  | _ => none

/-- The second loop of `print_string_ptr`. -/
def printChar (c : Char) : Text :=
  if 31 < c.toNat && c != '"' && c != '\\' then [c]
  else '\\' :: match shortEscape c with
    | some e => [e]
    | none => 'u' :: hex4 c.toNat

/-- `"\"\\\b\f\n\r\t"` -/
def escaped : Text := ['"', '\\', '\x08', '\x0c', '\n', '\r', '\t']

/-- The first loop of `print_string_ptr`. -/
def countEscaped : ℕ → Text → Result ℕ
  | len, [] => .ok len
  | len, token :: ptr => do
    let len ← int (len + 1)
    let len ← int (len + if token ∈ escaped then 1 else if token.toNat < 32 then 5 else 0)
    countEscaped len ptr

/-- `print_string_ptr` -/
def printStringPtr : Option Text → Result Text
  | none => strdup []
  | some str => do
    let len ← countEscaped 0 str
    let size ← int (len + 3)
    place size ('"' :: (str.flatMap printChar ++ ['"']))

/-- The last loop of `print_array`. -/
def composeEntries (fmt : Bool) : List Text → Text
  | [] => []
  | [ret] => ret
  | ret :: entries =>
    ret ++ (',' :: (if fmt then [' '] else [])) ++ composeEntries fmt entries

/-- `if (fmt) for (j=0;j<depth;j++) *ptr++='\t'` -/
def tabs (fmt : Bool) (depth : ℕ) : Text := if fmt then List.replicate depth '\t' else []

/-- The last loop of `print_object`, over `names` and `entries`. -/
def composeMembers (fmt : Bool) (depth : ℕ) : List (Text × Text) → Text
  | [] => []
  | (str, ret) :: members =>
    tabs fmt depth ++ str ++ ':' :: (if fmt then ['\t'] else []) ++ ret ++
      (if members.isEmpty then [] else [',']) ++ (if fmt then ['\n'] else []) ++
        composeMembers fmt depth members

/-- `while (child) numentries++,child=child->next` -/
def Items.length : Items D → ℕ
  | .nil => 0
  | .cons _ _ next => next.length + 1

mutual

/-- `print_value`, with `print_array` and `print_object` -/
def printValue [Double D] (item : Item D) (depth : ℕ) (fmt : Bool) : Result Text :=
  match item with
  | .null => strdup nullText
  | .false => strdup falseText
  | .true => strdup trueText
  | .number valueint valuedouble => printNumber valueint valuedouble
  | .string valuestring => printStringPtr valuestring
  | .array child => do
    let numentries ← int child.length
    if numentries = 0 then
      place 3 ['[', ']']
    else
      let depth ← int (depth + 1)
      let (entries, len) ← printEntries child depth fmt 5
      place len ('[' :: (composeEntries fmt entries ++ [']']))
  | .object child => do
    let numentries ← int child.length
    if numentries = 0 then
      let size ← (if fmt then int (depth + 4) else .ok 3)
      place size ('{' :: ((if fmt then '\n' :: tabs fmt (depth - 1) else []) ++ ['}']))
    else
      let depth ← int (depth + 1)
      let len ← int (7 + if fmt then depth else 0)
      let (members, len) ← printMembers child depth fmt len
      place len ('{' :: ((if fmt then ['\n'] else []) ++ composeMembers fmt depth members ++
        tabs fmt (depth - 1) ++ ['}']))

/-- The first loop of `print_array`: `entries` and `len`. -/
def printEntries [Double D] (child : Items D) (depth : ℕ) (fmt : Bool) (len : ℕ) :
    Result (List Text × ℕ) :=
  match child with
  | .nil => .ok ([], len)
  | .cons _ item next => do
    let ret ← printValue item depth fmt
    let len ← int (len + (ret.length + 2 + if fmt then 1 else 0))
    let (entries, len) ← printEntries next depth fmt len
    return (ret :: entries, len)

/-- The first loop of `print_object`, for `depth++`: `names` with `entries`, and `len`. -/
def printMembers [Double D] (child : Items D) (depth : ℕ) (fmt : Bool) (len : ℕ) :
    Result (List (Text × Text) × ℕ) :=
  match child with
  | .nil => .ok ([], len)
  | .cons string item next => do
    let str ← printStringPtr string
    let ret ← printValue item depth fmt
    let len ← int (len + (ret.length + str.length + 2 + if fmt then 2 + depth else 0))
    let (members, len) ← printMembers next depth fmt len
    return ((str, ret) :: members, len)

end

/-- `cJSON_Print` -/
def print [Double D] (item : Item D) : Result Text := printValue item 0 true

/-- `cJSON_PrintUnformatted` -/
def printUnformatted [Double D] (item : Item D) : Result Text := printValue item 0 false

/-! ## Parsing -/

def skip (value : Text) : Text := value.dropWhile fun c => c.toNat ≤ 32

/-- `*num++ - '0'` -/
def digit (c : Char) : ℤ := c.toNat - 48

/-- `do n=(n*10.0)+(*num++ -'0'); while (*num>='0' && *num<='9')`, with what `scale--` makes of
`scale` where there is one. -/
def readDigits [Double D] (scale' : D → D) : D × D → Text → (D × D) × Text
  | acc, [] => (acc, [])
  | (n, scale), c :: num =>
    if c.isDigit then
      readDigits scale' (Double.add (Double.mul n (Double.ofInt 10)) (Double.ofInt (digit c)),
        scale' scale) num
    else ((n, scale), c :: num)

/-- `while (*num>='0' && *num<='9') subscale=(subscale*10)+(*num++ - '0')` -/
def readSubscale : ℤ → Text → Result (ℤ × Text)
  | subscale, [] => .ok (subscale, [])
  | subscale, c :: num =>
    if c.isDigit then
      if subscale * 10 + digit c < 2 ^ 31 then readSubscale (subscale * 10 + digit c) num
      else .error (.fault .overflow)
    else .ok (subscale, c :: num)

/-- The exponent: `subscale*signsubscale`. -/
def readExponent : Text → Result (ℤ × Text)
  | c :: num =>
    if c = 'e' ∨ c = 'E' then
      match num with
      | '+' :: num => readSubscale 0 num
      | '-' :: num => do
        let (subscale, num) ← readSubscale 0 num
        return (subscale * -1, num)
      | num => readSubscale 0 num
    else .ok (0, c :: num)
  | [] => .ok (0, [])

/-- `if (*num=='-') sign=-1,num++` -/
def readSign : Text → ℤ × Text
  | '-' :: num => (-1, num)
  | num => (1, num)

/-- `if (*num=='0') num++` -/
def readZero : Text → Text
  | '0' :: num => num
  | num => num

/-- The digits before the point: `n` and `scale`. -/
def readWhole [Double D] : Text → (D × D) × Text
  | [] => ((Double.ofInt 0, Double.ofInt 0), [])
  | c :: num =>
    if c.isDigit && c != '0' then readDigits id (Double.ofInt 0, Double.ofInt 0) (c :: num)
    else ((Double.ofInt 0, Double.ofInt 0), c :: num)

/-- The fractional part, where a digit follows the point. -/
def readFraction [Double D] (acc : D × D) : Text → (D × D) × Text
  | '.' :: c :: num =>
    if c.isDigit then readDigits (fun scale => Double.sub scale (Double.ofInt 1)) acc (c :: num)
    else (acc, '.' :: c :: num)
  | num => (acc, num)

/-- `parse_number` -/
def parseNumber [Double D] (num : Text) : Result (Item D × Text) := do
  let (sign, num) := readSign num
  let (acc, num) := readWhole (readZero num)
  let (acc, num) := readFraction acc num
  let (exponent, num) ← readExponent num
  let n := Double.mul (Double.mul (Double.ofInt (D := D) sign) acc.1)
    (Double.pow (Double.ofInt 10) (Double.add acc.2 (Double.ofInt exponent)))
  match Double.toInt n with
  | some valueint => return (.number valueint n, num)
  | none => .error (.fault .conversion)

/-- The value of a digit of `parse_hex4`. -/
def hexValue (c : Char) : Option ℕ :=
  if '0' ≤ c ∧ c ≤ '9' then some (c.toNat - 48)
  else if 'A' ≤ c ∧ c ≤ 'F' then some (10 + (c.toNat - 65))
  else if 'a' ≤ c ∧ c ≤ 'f' then some (10 + (c.toNat - 97))
  else none

/-- The digits of `parse_hex4` that are left to be read, with what has been read. -/
def hexFrom : ℕ → ℕ → Text → ℕ
  | 0, h, _ => h
  | _ + 1, _, [] => 0
  | k + 1, h, c :: str =>
    match hexValue c with
    | some d => hexFrom k ((h <<< 4) + d) str
    | none => 0

/-- `parse_hex4` -/
def parseHex4 (str : Text) : ℕ := hexFrom 4 0 str

/-- The first loop of `parse_string`: how many characters there are room for. -/
def countString : ℕ → Text → Result ℕ
  | len, [] => .ok len
  | len, '"' :: _ => .ok len
  | len, ['\\'] => do
    let _ ← int (len + 1)
    .error (.fault .read)
  | len, '\\' :: _ :: ptr => do
    let len ← int (len + 1)
    countString len ptr
  | len, _ :: ptr => do
    let len ← int (len + 1)
    countString len ptr

/-- A value as it is stored in a `char`. -/
def byte (n : ℕ) : Char := Char.ofNat (n % 256)

/-- The bytes that `switch (len)` writes from the last one to the first. -/
def encodeBytes : (len : ℕ) → (mark : ℕ) → ℕ → Text
  | 0, _, _ => []
  | 1, mark, uc => [byte (uc ||| mark)]
  | len + 2, mark, uc => encodeBytes (len + 1) mark (uc >>> 6) ++ [byte ((uc ||| 0x80) &&& 0xBF)]

/-- `firstByteMark` -/
def firstByteMark : ℕ → ℕ
  | 2 => 0xC0
  | 3 => 0xE0
  | 4 => 0xF0
  | 5 => 0xF8
  | 6 => 0xFC
  | _ => 0x00

/-- The encoding of a code point. -/
def encode (uc : ℕ) : Text :=
  let len := if uc < 0x80 then 1 else if uc < 0x800 then 2 else if uc < 0x10000 then 3 else 4
  encodeBytes len (firstByteMark len) uc

/-- Go `n` characters on. -/
def advance (n : ℕ) (ptr : Text) : Result Text :=
  if n ≤ ptr.length then .ok (ptr.drop n) else .error (.fault .read)

/-- `case 'u'`, with the pointer behind the `u`: what is written, and where it goes on. -/
def transcode (ptr : Text) : Result (Text × Text) := do
  let uc := parseHex4 ptr
  let ptr ← advance 4 ptr
  if 0xDC00 ≤ uc ∧ uc ≤ 0xDFFF ∨ uc = 0 then
    return ([], ptr)
  else if 0xD800 ≤ uc ∧ uc ≤ 0xDBFF then
    match ptr with
    | '\\' :: 'u' :: ptr =>
      let uc2 := parseHex4 ptr
      let ptr ← advance 4 ptr
      if uc2 < 0xDC00 ∨ 0xDFFF < uc2 then
        return ([], ptr)
      else
        return (encode (0x10000 + (((uc &&& 0x3FF) <<< 10) ||| (uc2 &&& 0x3FF))), ptr)
    | ptr => return ([], ptr)
  else
    return (encode uc, ptr)

/-- `switch (*ptr)`, with the pointer behind the backslash. -/
def unescape : Text → Result (Text × Text)
  | [] => .error (.fault .read)
  | 'b' :: ptr => .ok (['\x08'], ptr)
  | 'f' :: ptr => .ok (['\x0c'], ptr)
  | 'n' :: ptr => .ok (['\n'], ptr)
  | 'r' :: ptr => .ok (['\r'], ptr)
  | 't' :: ptr => .ok (['\t'], ptr)
  | 'u' :: ptr => transcode ptr
  | c :: ptr => .ok ([c], ptr)

/-- `*ptr2++=` for some characters, into a buffer of `size`. -/
def write (size : ℕ) (out bytes : Text) : Result Text :=
  if out.length + bytes.length ≤ size then .ok (out ++ bytes) else .error (.fault .write)

/-- The second loop of `parse_string`, and the NUL. -/
def fillString (size : ℕ) : ℕ → Text → Text → Result (Text × Text)
  | 0, _, _ => .error .steps
  | steps + 1, ptr, out =>
    match ptr with
    | [] => do
      let _ ← write size out ['\x00']
      return (out, [])
    | '"' :: ptr => do
      let _ ← write size out ['\x00']
      return (out, ptr)
    | '\\' :: ptr => do
      let (bytes, ptr) ← unescape ptr
      let out ← write size out bytes
      fillString size steps ptr out
    | c :: ptr => do
      let out ← write size out [c]
      fillString size steps ptr out

/-- `parse_string` -/
def parseString (str : Text) : Result (Text × Text) :=
  match str with
  | '"' :: ptr => do
    let len ← countString 0 ptr
    let size ← int (len + 1)
    fillString size (ptr.length + 1) ptr []
  | _ => .error (.malformed str)

mutual

/-- `parse_value` -/
def parseValue [Double D] : ℕ → Text → Result (Item D × Text)
  | 0, _ => .error .steps
  | steps + 1, value =>
    if nullText.isPrefixOf value then .ok (.null, value.drop 4)
    else if falseText.isPrefixOf value then .ok (.false, value.drop 5)
    else if trueText.isPrefixOf value then .ok (.true, value.drop 4)
    else match value with
      | [] => .error (.malformed value)
      | c :: _ =>
        if c = '"' then do
          let (valuestring, value) ← parseString value
          return (.string (some valuestring), value)
        else if c = '-' || c.isDigit then parseNumber value
        else if c = '[' then parseArray steps value
        else if c = '{' then parseObject steps value
        else .error (.malformed value)

/-- `parse_array` -/
def parseArray [Double D] : ℕ → Text → Result (Item D × Text)
  | 0, _ => .error .steps
  | steps + 1, value =>
    match value with
    | '[' :: value =>
      match skip value with
      | ']' :: value => .ok (.array .nil, value)
      | value => do
        let (child, value) ← parseEntries steps value
        return (.array child, value)
    | _ => .error (.malformed value)

/-- The items of `parse_array` up to the bracket. -/
def parseEntries [Double D] : ℕ → Text → Result (Items D × Text)
  | 0, _ => .error .steps
  | steps + 1, value => do
    let (item, value) ← parseValue steps (skip value)
    match skip value with
    | ',' :: value =>
      let (next, value) ← parseEntries steps value
      return (.cons none item next, value)
    | ']' :: value => return (.cons none item .nil, value)
    | value => .error (.malformed value)

/-- `parse_object` -/
def parseObject [Double D] : ℕ → Text → Result (Item D × Text)
  | 0, _ => .error .steps
  | steps + 1, value =>
    match value with
    | '{' :: value =>
      match skip value with
      | '}' :: value => .ok (.object .nil, value)
      | value => do
        let (child, value) ← parseMembers steps value
        return (.object child, value)
    | _ => .error (.malformed value)

/-- The items of `parse_object` up to the brace. -/
def parseMembers [Double D] : ℕ → Text → Result (Items D × Text)
  | 0, _ => .error .steps
  | steps + 1, value => do
    let (string, value) ← parseString (skip value)
    match skip value with
    | ':' :: value =>
      let (item, value) ← parseValue steps (skip value)
      match skip value with
      | ',' :: value =>
        let (next, value) ← parseMembers steps value
        return (.cons (some string) item next, value)
      | '}' :: value => return (.cons (some string) item .nil, value)
      | value => .error (.malformed value)
    | value => .error (.malformed value)

end

/-- `cJSON_ParseWithOpts`: the root, and `return_parse_end`. Every call goes on in the text after at
most three steps, so the steps given are enough (`parseWithOpts_ends`). -/
def parseWithOpts [Double D] (value : Text) (requireNullTerminated : Bool) :
    Result (Item D × Text) := do
  let (c, ending) ← parseValue (3 * value.length + 2) (skip value)
  if requireNullTerminated then
    match skip ending with
    | [] => return (c, [])
    | ending => .error (.malformed ending)
  else return (c, ending)

/-- `cJSON_Parse` -/
def parse [Double D] (value : Text) : Result (Item D) := do
  let (c, _) ← parseWithOpts value false
  return c

end Wish.CJson
