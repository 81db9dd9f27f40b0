import Mathlib.Data.List.Basic
import Mathlib.Logic.Function.Iterate

/-!
# `decompression`

`practice/decompress.cpp`. A run of `m` equal strings is compressed to `[m|S]`. The characters are
pushed on a deque; at `]` they are popped down to the last `[`, the count before `|` is collected
in a buffer of three `char`, and what stands behind `|` is pushed `m` times.

A count of three digits leaves no room for the 0 that `atoi` reads up to, so that 100 is the one
allowed count that does not work (`decompression_eq_iff`).
-/

namespace Wish.Decompress

inductive Fault
  /-- `back()` of an empty deque. -/
  | empty
  /-- A write behind `buf`. -/
  | bufWrite
  /-- A read behind `buf`. -/
  | bufRead
  deriving DecidableEq, Repr

/-- The deque, with its back at the head of the list. -/
abbrev Deque := List Char

/-- The `while` at `]`, and the `pop_back` after it. -/
def popGroup : Deque → List Char → Except Fault (Deque × List Char)
  | [], _ => throw .empty
  | c :: deq, ss => if c ≠ '[' then popGroup deq (ss ++ [c]) else pure (deq, ss)

/-- What the loop over `ss` changes; `buf` is `buf[0..idx)`. -/
structure Count where
  m : Nat
  buf : List Char
  ss2 : List Char
  deriving Repr

/-- `atoi(buf)` for a buffer of digits, which goes up to the first 0. -/
def atoi (buf : List Char) : Except Fault Nat :=
  if buf.length < 3 then pure (buf.foldl (fun n c => n * 10 + (c.toNat - '0'.toNat)) 0)
  else throw .bufRead

/-- The body of the loop over `ss`. -/
def readChar (s : Count) (c : Char) : Except Fault Count :=
  if s.m > 0 then
    pure { s with ss2 := s.ss2 ++ [c] }
  else if c = '|' then do
    let m ← atoi s.buf
    pure { s with m }
  else if '0' ≤ c ∧ c ≤ '9' then
    if s.buf.length < 3 then pure { s with buf := s.buf ++ [c] } else throw .bufWrite
  else
    pure s

/-- `for(auto &c : ss2) deq_compress.push_back(c)` -/
def pushAll (ss2 : List Char) (deq : Deque) : Deque := ss2.foldl (fun deq c => c :: deq) deq

/-- One round of the loop over the text. -/
def step (deq : Deque) (c : Char) : Except Fault Deque :=
  if c = ']' then do
    let (deq, ss) ← popGroup deq []
    let s ← ss.reverse.foldlM readChar ⟨0, [], []⟩
    pure ((pushAll s.ss2)^[s.m] deq)
  else
    pure (c :: deq)

/-- The text is given up to its terminating 0, the deque is returned from the front. -/
def decompression (compressStr : List Char) : Except Fault (List Char) := do
  let deq ← compressStr.foldlM step []
  pure deq.reverse

/-! ## The format -/

/-- A well-formed compressed text. -/
inductive Text
  | nil
  | letter (c : Char) (hc : c.isAlpha = true) (rest : Text)
  | group (m : Nat) (hm : 1 ≤ m ∧ m ≤ 100) (body rest : Text)

namespace Text

def chars : Text → List Char
  | nil => []
  | letter c _ rest => c :: rest.chars
  | group m _ body rest =>
    '[' :: (Nat.toDigits 10 m ++ '|' :: (body.chars ++ ']' :: rest.chars))

def expansion : Text → List Char
  | nil => []
  | letter c _ rest => c :: rest.expansion
  | group m _ body rest => (List.replicate m body.expansion).flatten ++ rest.expansion

/-- Every count leaves room for its terminating 0. -/
def Fits : Text → Prop
  | nil => True
  | letter _ _ rest => rest.Fits
  | group m _ body rest => body.Fits ∧ m ≠ 100 ∧ rest.Fits

theorem isAlpha_of_mem_expansion (t : Text) : ∀ c ∈ t.expansion, c.isAlpha = true := by
  induction t with
  | nil => nofun
  | letter c hc rest ih =>
    intro d hd
    rcases List.mem_cons.mp hd with rfl | hd
    · exact hc
    · exact ih d hd
  | group m hm body rest ihb ihr =>
    intro d hd
    rcases List.mem_append.mp hd with hd | hd
    · obtain ⟨s, hs, hds⟩ := List.mem_flatten.mp hd
      rw [(List.mem_replicate.mp hs).2] at hds
      exact ihb d hds
    · exact ihr d hd

end Text

/-! ## Counts -/

theorem digit_range {c : Char} {m : Nat} (hc : c ∈ Nat.toDigits 10 m) : '0' ≤ c ∧ c ≤ '9' := by
  have hdigit : c.isDigit = true := Nat.isDigit_of_mem_toDigits (by decide) (by decide) hc
  rw [Char.isDigit, Bool.and_eq_true] at hdigit
  exact ⟨of_decide_eq_true hdigit.1, of_decide_eq_true hdigit.2⟩

theorem length_digits_le {m : Nat} (hm : m ≤ 100) : (Nat.toDigits 10 m).length ≤ 3 :=
  (Nat.length_toDigits_le_iff (by decide) (by decide)).mpr (by omega)

/-- `atoi` reads the digits of a count if there are at most two of them. -/
theorem atoi_toDigits {m : Nat} (hm : m ≤ 100) :
    atoi (Nat.toDigits 10 m) = if m = 100 then .error .bufRead else .ok m := by
  have hlen : (Nat.toDigits 10 m).length ≤ 2 ↔ m < 100 :=
    Nat.length_toDigits_le_iff (by decide) (by decide)
  by_cases h100 : m = 100
  · rw [atoi, if_neg (by omega), if_pos h100]
    rfl
  · rw [atoi, if_pos (by omega), if_neg h100]
    have hval : Nat.ofDigitChars 10 (Nat.toDigits 10 m) 0 = m := Nat.ofDigitChars_ten_toDigits
    rw [Nat.ofDigitChars_eq_foldl] at hval
    simp only [Nat.mul_comm 10] at hval
    rw [hval]
    rfl

/-! ## One group -/

variable {cs ds buf ss : List Char} {deq : Deque} {m : Nat}

theorem pushAll_eq (ss : List Char) (deq : Deque) : pushAll ss deq = ss.reverse ++ deq := by
  induction ss generalizing deq with
  | nil => rfl
  | cons c ss ih =>
    rw [List.reverse_cons, List.append_assoc]
    exact ih (c :: deq)

theorem iterate_pushAll (m : Nat) (ss : List Char) (deq : Deque) :
    (pushAll ss)^[m] deq = (List.replicate m ss).flatten.reverse ++ deq := by
  induction m generalizing deq with
  | zero => rfl
  | succ m ih =>
    rw [Function.iterate_succ_apply, ih, pushAll_eq, List.replicate_succ, List.flatten_cons,
      List.reverse_append, List.append_assoc]

theorem foldlM_step_push (h : ∀ c ∈ cs, c ≠ ']') (deq : Deque) :
    cs.foldlM step deq = .ok (cs.reverse ++ deq) := by
  induction cs generalizing deq with
  | nil => rfl
  | cons c cs ih =>
    have hstep : step deq c = .ok (c :: deq) := if_neg (h c List.mem_cons_self)
    rw [List.foldlM_cons, hstep, List.reverse_cons, List.append_assoc]
    exact ih (fun d hd => h d (List.mem_cons_of_mem c hd)) (c :: deq)

theorem popGroup_eq (h : ∀ c ∈ cs, c ≠ '[') (deq : Deque) (ss : List Char) :
    popGroup (cs ++ '[' :: deq) ss = .ok (deq, ss ++ cs) := by
  induction cs generalizing ss with
  | nil =>
    rw [List.append_nil]
    rfl
  | cons c cs ih =>
    rw [List.cons_append, popGroup, if_pos (h c List.mem_cons_self),
      ih (fun d hd => h d (List.mem_cons_of_mem c hd)), List.append_assoc]
    rfl

/-- The count is collected. -/
theorem foldlM_readChar_digits (h : ∀ c ∈ ds, '0' ≤ c ∧ c ≤ '9')
    (hlen : buf.length + ds.length ≤ 3) :
    ds.foldlM readChar ⟨0, buf, ss⟩ = .ok ⟨0, buf ++ ds, ss⟩ := by
  induction ds generalizing buf with
  | nil =>
    rw [List.append_nil]
    rfl
  | cons c ds ih =>
    have hc := h c List.mem_cons_self
    have hbar : c ≠ '|' := by
      rintro rfl
      exact absurd hc.2 (by decide)
    rw [List.length_cons] at hlen
    have hread : readChar ⟨0, buf, ss⟩ c = .ok ⟨0, buf ++ [c], ss⟩ := by
      rw [readChar, if_neg (Nat.lt_irrefl 0), if_neg hbar, if_pos hc]
      exact if_pos (by simp only; omega)
    have hnext : ds.foldlM readChar ⟨0, buf ++ [c], ss⟩ = .ok ⟨0, buf ++ [c] ++ ds, ss⟩ := by
      refine ih (fun d hd => h d (List.mem_cons_of_mem c hd)) ?_
      rw [List.length_append, List.length_singleton]
      omega
    rw [List.foldlM_cons, hread, List.append_cons buf c ds]
    exact hnext

/-- What stands behind `|` is kept. -/
theorem foldlM_readChar_rest (hm : 0 < m) (cs buf ss : List Char) :
    cs.foldlM readChar ⟨m, buf, ss⟩ = .ok ⟨m, buf, ss ++ cs⟩ := by
  induction cs generalizing ss with
  | nil =>
    rw [List.append_nil]
    rfl
  | cons c cs ih =>
    have hread : readChar ⟨m, buf, ss⟩ c = .ok ⟨m, buf, ss ++ [c]⟩ := if_pos hm
    rw [List.foldlM_cons, hread, List.append_cons ss c cs]
    exact ih (ss ++ [c])

theorem step_close (hm : 1 ≤ m ∧ m ≤ 100) (hcs : ∀ c ∈ cs, c.isAlpha = true) (deq : Deque) :
    step (cs.reverse ++ '|' :: ((Nat.toDigits 10 m).reverse ++ '[' :: deq)) ']' =
      if m = 100 then .error .bufRead
      else .ok ((List.replicate m cs).flatten.reverse ++ deq) := by
  have hdigits : ∀ c ∈ Nat.toDigits 10 m, '0' ≤ c ∧ c ≤ '9' := fun _ hc => digit_range hc
  have hpop : popGroup (cs.reverse ++ '|' :: ((Nat.toDigits 10 m).reverse ++ '[' :: deq)) [] =
      .ok (deq, (Nat.toDigits 10 m ++ '|' :: cs).reverse) := by
    have hne : ∀ c ∈ (Nat.toDigits 10 m ++ '|' :: cs).reverse, c ≠ '[' := by
      rintro c hc rfl
      rcases List.mem_append.mp (List.mem_reverse.mp hc) with hc | hc
      · exact absurd (hdigits _ hc).2 (by decide)
      · rcases List.mem_cons.mp hc with hc | hc
        · exact absurd hc (by decide)
        · exact absurd (hcs _ hc) (by decide)
    have h := popGroup_eq hne deq []
    rw [List.nil_append] at h
    rw [← h]
    simp
  have hcount : (Nat.toDigits 10 m).foldlM readChar ⟨0, [], []⟩ =
      .ok ⟨0, Nat.toDigits 10 m, []⟩ :=
    foldlM_readChar_digits hdigits (by simpa using length_digits_le hm.2)
  have hbar : readChar ⟨0, Nat.toDigits 10 m, []⟩ '|' =
      (atoi (Nat.toDigits 10 m)).map fun n => ⟨n, Nat.toDigits 10 m, []⟩ := by
    cases hv : atoi (Nat.toDigits 10 m) with
    | error e => simp [readChar, hv, bind, Except.bind, Except.map]
    | ok v => simp [readChar, hv, bind, Except.bind, Except.map, pure, Except.pure]
  rw [step, if_pos rfl, hpop]
  show ((Nat.toDigits 10 m ++ '|' :: cs).reverse.reverse.foldlM readChar ⟨0, [], []⟩ >>= _) = _
  rw [List.reverse_reverse, List.foldlM_append, hcount]
  show (('|' :: cs).foldlM readChar ⟨0, Nat.toDigits 10 m, []⟩ >>= _) = _
  rw [List.foldlM_cons, hbar, atoi_toDigits hm.2]
  by_cases h100 : m = 100
  · rw [if_pos h100, if_pos h100]
    rfl
  · rw [if_neg h100, if_neg h100]
    show (cs.foldlM readChar ⟨m, Nat.toDigits 10 m, []⟩ >>= _) = _
    rw [foldlM_readChar_rest hm.1]
    exact congrArg Except.ok (iterate_pushAll m cs deq)

/-! ## Every well-formed text -/

/-- The text of a group up to its body. -/
theorem foldlM_step_open (m : Nat) (deq : Deque) :
    ('[' :: (Nat.toDigits 10 m ++ ['|'])).foldlM step deq =
      .ok ('|' :: ((Nat.toDigits 10 m).reverse ++ '[' :: deq)) := by
  have hne : ∀ c ∈ '[' :: (Nat.toDigits 10 m ++ ['|']), c ≠ ']' := by
    rintro c hc rfl
    rcases List.mem_cons.mp hc with hc | hc
    · exact absurd hc (by decide)
    · rcases List.mem_append.mp hc with hc | hc
      · exact absurd (digit_range hc).2 (by decide)
      · exact absurd (List.mem_singleton.mp hc) (by decide)
  rw [foldlM_step_push hne]
  simp

theorem Text.chars_group (m : Nat) (hm : 1 ≤ m ∧ m ≤ 100) (body rest : Text) :
    (Text.group m hm body rest).chars =
      ('[' :: (Nat.toDigits 10 m ++ ['|'])) ++ (body.chars ++ (']' :: rest.chars)) := by
  simp [Text.chars]

/-- The deque is a stack: what is below is left alone. -/
theorem Text.run (t : Text) (deq : Deque) :
    (t.Fits → t.chars.foldlM step deq = .ok (t.expansion.reverse ++ deq)) ∧
      (¬ t.Fits → t.chars.foldlM step deq = .error .bufRead) := by
  induction t generalizing deq with
  | nil => exact ⟨fun _ => rfl, fun h => absurd trivial h⟩
  | letter c hc rest ih =>
    have hne : c ≠ ']' := by
      rintro rfl
      exact absurd hc (by decide)
    have hstep : step deq c = .ok (c :: deq) := if_neg hne
    rw [Text.chars, List.foldlM_cons, hstep, Text.expansion, List.reverse_cons, List.append_assoc]
    exact ih (c :: deq)
  | group m hm body rest ihb ihr =>
    have hclose := step_close hm body.isAlpha_of_mem_expansion deq
    obtain ⟨hbody, hbody'⟩ := ihb ('|' :: ((Nat.toDigits 10 m).reverse ++ '[' :: deq))
    rw [Text.chars_group, List.foldlM_append, foldlM_step_open m]
    show (_ → (body.chars ++ (']' :: rest.chars)).foldlM step _ = _) ∧
      (_ → (body.chars ++ (']' :: rest.chars)).foldlM step _ = _)
    rw [List.foldlM_append]
    by_cases hb : body.Fits
    · rw [hbody hb]
      show (_ → (step _ ']' >>= fun deq => rest.chars.foldlM step deq) = _) ∧
        (_ → (step _ ']' >>= fun deq => rest.chars.foldlM step deq) = _)
      rw [hclose]
      by_cases h100 : m = 100
      · rw [if_pos h100]
        exact ⟨fun h => absurd h100 h.2.1, fun _ => rfl⟩
      · rw [if_neg h100]
        obtain ⟨hrest, hrest'⟩ := ihr ((List.replicate m body.expansion).flatten.reverse ++ deq)
        refine ⟨fun h => ?_, fun h => hrest' fun hr => h ⟨hb, h100, hr⟩⟩
        rw [Text.expansion, List.reverse_append, List.append_assoc]
        exact hrest h.2.2
    · rw [hbody' hb]
      exact ⟨fun h => absurd h.1 hb, fun _ => rfl⟩

/-- The one fault that a well-formed text leads to. -/
theorem decompression_of_not_fits {t : Text} (h : ¬ t.Fits) :
    decompression t.chars = .error .bufRead := by
  rw [decompression, (t.run []).2 h]
  rfl

theorem decompression_eq_iff (t : Text) : decompression t.chars = .ok t.expansion ↔ t.Fits := by
  constructor
  · intro h
    by_contra hfits
    cases h.symm.trans (decompression_of_not_fits hfits)
  · intro h
    rw [decompression, (t.run []).1 h, List.append_nil]
    exact congrArg Except.ok (List.reverse_reverse _)

/-- `[100|A]` -/
def hundred : Text := .group 100 (by decide) (.letter 'A' (by decide) .nil) .nil

theorem decompression_hundred :
    hundred.chars = "[100|A]".toList ∧ decompression hundred.chars ≠ .ok hundred.expansion := by
  refine ⟨by decide, fun h => ?_⟩
  cases h.symm.trans (decompression_of_not_fits fun hfits => hfits.2.1 rfl)

example : decompression "A[2|B[3|C]]D".toList = .ok "ABCCCBCCCD".toList := by decide

end Wish.Decompress
