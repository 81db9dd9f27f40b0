import Wish.Net.Http.UriFound

/-!
# What `uri::parse_from_array` reads

The parser once more, on pointers. A pointer is an index into the text, and behind the NUL there
is nothing to read: `none` is a read that goes there. Where there is none, the parser is the one
on texts (`parseFromArray_eq`).

* `inBounds_iff`: the read that goes too far is the copy of the port.
-/

namespace Wish.Http

/-- A NUL-terminated string. -/
structure CString where
  text : Text
  terminated : NUL ∉ text

namespace CString

/-- `*p` -/
def peek (s : CString) (p : Nat) : Option Char := (s.text ++ [NUL])[p]?

/-- `assign(p, n)`, and `std::string(p, n)` -/
def copy (s : CString) (p n : Nat) : Option Text := (List.range' p n).mapM s.peek

theorem lt_of_peek {s : CString} {p : Nat} {c : Char} (h : s.peek p = some c) (hc : c ≠ NUL) :
    p < s.text.length := by
  obtain ⟨hp, hget⟩ := List.getElem?_eq_some_iff.mp h
  rw [List.length_append, List.length_singleton] at hp
  by_contra hlt
  obtain rfl : p = s.text.length := by omega
  rw [List.getElem_concat_length rfl] at hget
  exact hc hget.symm

/-- `for (; *p && !stop(*p); ++p)` -/
def scanUntil (s : CString) (stop : Char → Bool) (p : Nat) : Option Nat :=
  match hp : s.peek p with
  | none => none
  | some c => if hc : c = NUL then some p else if stop c then some p else s.scanUntil stop (p + 1)
termination_by s.text.length - p
decreasing_by
  have hlt := lt_of_peek hp hc
  omega

/-- It gets a copy of the pointer. -/
def skipSpace (s : CString) (p : Nat) : Option Unit := do
  let _ ← s.scanUntil (· != ' ') p

/-- `p[1] == '/' && p[2] == '/'` -/
def twoSlashes (s : CString) (p : Nat) : Option Bool := do
  if (← s.peek (p + 1)) = '/' then
    return (← s.peek (p + 2)) = '/'
  return false

/-- The first loop. -/
def scanHead (s : CString) (u : Uri) (start p : Nat) : Option (Uri × Nat) :=
  match hp : s.peek p with
  | none => none
  | some c =>
    if hc : c = NUL then some (u, start)
    else do
      s.skipSpace p
      if c = ':' then
        if ← s.twoSlashes p then
          -- `p += 2`, and the `++p` of the loop
          s.scanHead { u with mSchema := ← s.copy start (p - start) } (p + 3) (p + 3)
        else
          s.scanHead u start (p + 1)
      else if c = '@' then
        s.scanHead { u with mUserInfo := ← s.copy start (p - start) } (p + 1) (p + 1)
      else
        s.scanHead u start (p + 1)
termination_by s.text.length - p
decreasing_by
  all_goals
    have hlt := lt_of_peek hp hc
    omega

/-- The second loop: `addr_end` and `split_pos`. -/
def scanAddress (s : CString) (splitPos : Option Nat) (p : Nat) : Option (Nat × Option Nat) :=
  match hp : s.peek p with
  | none => none
  | some c =>
    if hc : c = NUL then some (p, splitPos)
    else do
      s.skipSpace p
      if Uri.isDelimiter c then return (p, splitPos)
      s.scanAddress (if c = ':' then some p else splitPos) (p + 1)
termination_by s.text.length - p
decreasing_by
  have hlt := lt_of_peek hp hc
  omega

def setAddress (s : CString) (u : Uri) (addrStart addrEnd : Nat) :
    Option Nat → Option Uri
  | none => do
    return { u with mHost := ← s.copy addrStart (addrEnd - addrStart), mPort := 80 }
  | some splitPos => do
    return { u with
      mHost := ← s.copy addrStart (splitPos - addrStart)
      mPort := atoi (← s.copy (splitPos + 1) (addrEnd - splitPos + 1)) }

/-- The stages of the third loop, as in `Uri.parseFragment` and so on. -/
def parseFragment (s : CString) (u : Uri) (p : Nat) : Option (Bool × Uri × Nat) := do
  if (← s.peek p) = '#' then
    let start := p + 1
    let p ← s.scanUntil (fun _ => false) start
    return (true, { u with mFragment := ← s.copy start (p - start) }, p)
  return (true, u, p)

def parseQuery (s : CString) (u : Uri) (p : Nat) : Option (Bool × Uri × Nat) := do
  let c ← s.peek p
  if c = '?' ∨ c = '#' then
    let start := p + 1
    let p ← s.scanUntil (· == '#') start
    let query ← s.copy start (p - start)
    let u := { u with mQuery := query }
    if query = [] then s.parseFragment u p
    else
      match Uri.insertParams u.mQueryMap (split query '&') with
      | (true, m) => s.parseFragment { u with mQueryMap := m } p
      | (false, m) => return (false, { u with mQueryMap := m }, p)
  else return (true, u, p)

def parsePath (s : CString) (u : Uri) (p : Nat) : Option (Bool × Uri × Nat) := do
  if Uri.isDelimiter (← s.peek p) then
    let start := p + 1
    let p ← s.scanUntil (fun c => c == '?' || c == '#') start
    s.parseQuery { u with mPath := ← s.copy start (p - start) } p
  else return (true, u, p)

def parseFromArray (s : CString) (u : Uri) : Option (Bool × Uri) := do
  s.skipSpace 0
  let (u, addrStart) ← s.scanHead u 0 0
  let (addrEnd, splitPos) ← s.scanAddress none addrStart
  let u ← s.setAddress u addrStart addrEnd splitPos
  let urlStart := addrEnd
  match ← s.parsePath u urlStart with
  | (true, u, p) => return (true, { u with mUrl := ← s.copy urlStart (p - urlStart) })
  | (false, u, _) => return (false, u)

/-! ## The text from a pointer on -/

/-- `p` points to `t`, and to the NUL behind it. -/
def At (s : CString) (p : Nat) (t : Text) : Prop := ∃ pre, s.text = pre ++ t ∧ p = pre.length

variable {s : CString} {u : Uri} {p q : Nat} {t r : Text} {c : Char}

theorem at_zero (s : CString) : s.At 0 s.text := ⟨[], rfl, rfl⟩

theorem At.le (h : s.At p t) : p + t.length = s.text.length := by
  obtain ⟨pre, htext, rfl⟩ := h
  rw [htext, List.length_append]

theorem At.advance (h : s.At p (t ++ r)) : s.At (p + t.length) r := by
  obtain ⟨pre, htext, rfl⟩ := h
  refine ⟨pre ++ t, ?_, List.length_append.symm⟩
  rw [htext, List.append_assoc]

theorem At.next (h : s.At p (c :: t)) : s.At (p + 1) t := At.advance (t := [c]) h

theorem At.peek_nil (h : s.At p []) : s.peek p = some NUL := by
  obtain ⟨pre, htext, rfl⟩ := h
  rw [List.append_nil] at htext
  rw [peek, htext, List.getElem?_concat_length]

theorem At.peek_cons (h : s.At p (c :: t)) : s.peek p = some c := by
  obtain ⟨pre, htext, rfl⟩ := h
  rw [peek, htext, List.append_assoc, List.getElem?_append_right le_rfl, Nat.sub_self]
  rfl

theorem At.ne_nul (h : s.At p (c :: t)) : c ≠ NUL := by
  rintro rfl
  obtain ⟨pre, htext, -⟩ := h
  have hmem : NUL ∈ s.text := htext ▸ List.mem_append_right pre List.mem_cons_self
  exact s.terminated hmem

theorem At.copy (h : s.At p (t ++ r)) : s.copy p t.length = some t := by
  unfold CString.copy
  induction t generalizing p with
  | nil => rfl
  | cons c t ih =>
    rw [List.length_cons, List.range'_succ, List.mapM_cons, h.peek_cons, ih h.next]
    rfl

/-- The copy with the character behind it. -/
theorem At.copy_succ (h : s.At p (t ++ r)) :
    s.copy p (t.length + 1) = some (t ++ [r.headD NUL]) := by
  have hlast : s.peek (p + t.length) = some (r.headD NUL) := by
    cases r with
    | nil => exact h.advance.peek_nil
    | cons c r => exact h.advance.peek_cons
  have hcopy := h.copy
  unfold CString.copy at hcopy ⊢
  rw [← List.range'_append_1, List.mapM_append, hcopy, List.range'_one, List.mapM_cons, hlast]
  rfl

theorem At.copy_none (h : s.At p t) : s.copy p (t.length + 2) = none := by
  unfold CString.copy
  induction t generalizing p with
  | nil =>
    have hbehind : s.peek (p + 1) = none := by
      rw [peek, List.getElem?_eq_none_iff, List.length_append, ← h.le]
      exact le_rfl
    rw [List.length_nil, List.range'_succ, List.mapM_cons, h.peek_nil, List.range'_one,
      List.mapM_cons, hbehind]
    rfl
  | cons c t ih =>
    rw [List.length_cons, Nat.add_right_comm, List.range'_succ, List.mapM_cons, h.peek_cons,
      ih h.next]
    rfl

/-! ## The loops -/

theorem At.scanUntil {stop : Char → Bool} (h : s.At p t) :
    s.scanUntil stop p = some (p + (t.takeWhile fun c => !stop c).length) := by
  induction t generalizing p with
  | nil =>
    rw [CString.scanUntil]
    split
    · next hnone => cases h.peek_nil.symm.trans hnone
    · next c hsome =>
      obtain rfl : NUL = c := Option.some.inj (h.peek_nil.symm.trans hsome)
      rfl
  | cons c t ih =>
    rw [CString.scanUntil]
    split
    · next hnone => cases h.peek_cons.symm.trans hnone
    · next d hsome =>
      obtain rfl : c = d := Option.some.inj (h.peek_cons.symm.trans hsome)
      rw [dif_neg h.ne_nul, List.takeWhile_cons]
      cases hstop : stop c with
      | true => rfl
      | false =>
        rw [ih h.next]
        simp [Nat.add_assoc, Nat.add_comm]

theorem At.skipSpace (h : s.At p t) : s.skipSpace p = some () := by
  rw [CString.skipSpace, h.scanUntil]
  rfl

theorem At.twoSlashes (h : s.At p (c :: t)) :
    s.twoSlashes p = some (decide (['/', '/'] <+: t)) := by
  rw [CString.twoSlashes]
  cases t with
  | nil =>
    rw [h.next.peek_nil]
    rfl
  | cons d t =>
    rw [h.next.peek_cons]
    by_cases hd : d = '/'
    · subst hd
      cases t with
      | nil =>
        rw [h.next.next.peek_nil]
        rfl
      | cons e t =>
        rw [h.next.next.peek_cons]
        simp [List.cons_prefix_cons, eq_comm]
    · simp [hd, List.cons_prefix_cons, eq_comm]

/-- One turn of the first loop. -/
theorem At.scanHead_cons {start : Nat} (h : s.At p (c :: t)) : s.scanHead u start p =
    if c = ':' then
      if ['/', '/'] <+: t then
        (s.copy start (p - start)).bind fun schema =>
          s.scanHead { u with mSchema := schema } (p + 3) (p + 3)
      else s.scanHead u start (p + 1)
    else if c = '@' then
      (s.copy start (p - start)).bind fun userInfo =>
        s.scanHead { u with mUserInfo := userInfo } (p + 1) (p + 1)
    else s.scanHead u start (p + 1) := by
  rw [scanHead]
  split
  · next hnone => cases h.peek_cons.symm.trans hnone
  · next d hsome =>
    obtain rfl : c = d := Option.some.inj (h.peek_cons.symm.trans hsome)
    rw [dif_neg h.ne_nul, h.skipSpace, h.twoSlashes]
    simp only [Option.bind_eq_bind, Option.bind_some, decide_eq_true_eq]

theorem At.scanHead {start : Text} (h : s.At q (start ++ t)) :
    ∃ k, s.scanHead u q (q + start.length) = some ((u.scanHead start t).1, k) ∧
      s.At k (u.scanHead start t).2 := by
  have hcopy := h.copy
  have hp := h.advance
  fun_induction Uri.scanHead u start t generalizing q with
  | case1 u start =>
    rw [List.append_nil] at h
    refine ⟨q, ?_, h⟩
    rw [CString.scanHead]
    split
    · next hnone => cases hp.peek_nil.symm.trans hnone
    · next c hsome =>
      obtain rfl : NUL = c := Option.some.inj (hp.peek_nil.symm.trans hsome)
      rfl
  | case2 u start t ih =>
    have hnext := hp.advance (t := [':', '/', '/'])
    obtain ⟨k, hk⟩ := ih hnext rfl hnext
    rw [hp.scanHead_cons, if_pos rfl, if_pos ⟨t, rfl⟩, Nat.add_sub_cancel_left, hcopy]
    exact ⟨k, hk⟩
  | case3 u start t ih =>
    obtain ⟨k, hk⟩ := ih hp.next rfl hp.next
    rw [hp.scanHead_cons, if_neg (by decide), if_pos rfl, Nat.add_sub_cancel_left, hcopy]
    exact ⟨k, hk⟩
  | case4 u start c t hslash hat ih =>
    rw [List.append_cons] at h
    have hnext := h.advance
    obtain ⟨k, hk⟩ := ih h h.copy hnext
    rw [List.length_append, List.length_singleton, ← Nat.add_assoc] at hk
    rw [hp.scanHead_cons, if_neg hat]
    split
    · next hc =>
      rw [if_neg]
      · exact ⟨k, hk⟩
      · rintro ⟨v, rfl⟩
        exact hslash v hc rfl
    · exact ⟨k, hk⟩

theorem At.scanAddress {split : Option Nat} (h : s.At p t) :
    s.scanAddress split p =
      some (p + (t.takeWhile fun c => !Uri.isDelimiter c).length,
        ((Uri.splitPos (t.takeWhile fun c => !Uri.isDelimiter c)).map fun r => p + r.1.length).or
          split) := by
  induction t generalizing p split with
  | nil =>
    rw [CString.scanAddress]
    split
    · next hnone => cases h.peek_nil.symm.trans hnone
    · next c hsome =>
      obtain rfl : NUL = c := Option.some.inj (h.peek_nil.symm.trans hsome)
      rfl
  | cons c t ih =>
    rw [CString.scanAddress]
    split
    · next hnone => cases h.peek_cons.symm.trans hnone
    · next d hsome =>
      obtain rfl : c = d := Option.some.inj (h.peek_cons.symm.trans hsome)
      rw [dif_neg h.ne_nul, h.skipSpace, List.takeWhile_cons]
      cases hstop : Uri.isDelimiter c with
      | true => rfl
      | false =>
        simp only [Option.bind_eq_bind, Option.bind_some, Bool.false_eq_true, if_false,
          Bool.not_false, if_true, List.length_cons, Uri.splitPos]
        rw [ih h.next]
        cases hs : Uri.splitPos (t.takeWhile fun c => !Uri.isDelimiter c) with
        | some r => simp [Nat.add_assoc, Nat.add_comm 1]
        | none =>
          split
          · simp [Nat.add_assoc, Nat.add_comm 1]
          · simp [Nat.add_assoc, Nat.add_comm 1]

/-! ## The copies -/

theorem At.setAddress {addr : Text} (h : s.At p (addr ++ r)) (hr : Tail r) :
    s.setAddress u p (p + addr.length) ((Uri.splitPos addr).map fun v => p + v.1.length) =
      if ':' ∈ addr ∧ r = [] then none else some (u.setAddress addr r) := by
  unfold Uri.setAddress
  cases hs : Uri.splitPos addr with
  | none =>
    rw [if_neg fun hmem => Found.not_mem_of_splitPos_eq_none hs hmem.1, Option.map_none,
      CString.setAddress, Nat.add_sub_cancel_left, h.copy]
    rfl
  | some v =>
    obtain ⟨host, port⟩ := v
    obtain rfl := Uri.splitPos_eq hs
    have hmem : ':' ∈ host ++ ':' :: port := List.mem_append_right host List.mem_cons_self
    have hsplit := h
    rw [List.append_assoc] at hsplit
    have hport : s.At (p + host.length + 1) (port ++ r) := hsplit.advance.next
    have hlength : p + (host ++ ':' :: port).length - (p + host.length) + 1 = port.length + 2 := by
      rw [List.length_append, List.length_cons]
      omega
    rw [Option.map_some, CString.setAddress, Nat.add_sub_cancel_left, hsplit.copy, hlength]
    cases r with
    | nil =>
      rw [List.append_nil] at hport
      rw [hport.copy_none, if_pos ⟨hmem, rfl⟩]
      rfl
    | cons d r =>
      have hcopy := At.copy_succ (t := port ++ [d]) (r := r) (by rwa [← List.append_cons])
      rw [List.length_append, List.length_singleton] at hcopy
      -- two characters too many, of which the first one is a delimiter
      have hread : atoi (port ++ [d] ++ [r.headD NUL]) = atoi port := by
        rw [List.append_assoc]
        exact atoi_append hr
      have htake : atoi ((port ++ d :: r).take (port.length + 1 + 1)) = atoi port := by
        rw [List.take_append, atoi_append (hr.take _), List.take_of_length_le (by omega)]
      rw [hcopy, if_neg fun hnil => List.cons_ne_nil d r hnil.2]
      simp only [htake]
      rw [← hread]
      rfl

/-! ## The stages -/

/-- The stage is left where the one on texts is. -/
def Stage (s : CString) (out : Option (Bool × Uri × Nat)) (res : Bool × Uri × Text) : Prop :=
  ∃ k, out = some (res.1, res.2.1, k) ∧ s.At k res.2.2

/-- From a pointer behind a delimiter to the end of a part. -/
theorem At.part {f g : Char → Bool} (hg : (fun c => !f c) = g) (h : s.At p t) :
    ∃ k, s.scanUntil f p = some k ∧ s.copy p (k - p) = some (t.takeWhile g) ∧
      s.At k (t.dropWhile g) := by
  subst hg
  refine ⟨_, h.scanUntil, ?_⟩
  rw [← List.takeWhile_append_dropWhile (p := fun c => !f c) (l := t)] at h
  rw [Nat.add_sub_cancel_left]
  exact ⟨h.copy, h.advance⟩

theorem At.peek_head (h : s.At p t) : s.peek p = some (t.headD NUL) := by
  cases t with
  | nil => exact h.peek_nil
  | cons c t => exact h.peek_cons

theorem At.parseFragment (h : s.At p t) : s.Stage (s.parseFragment u p) (u.parseFragment t) := by
  unfold CString.parseFragment
  rw [h.peek_head]
  cases t with
  | nil => exact ⟨p, rfl, h⟩
  | cons c t =>
    by_cases hc : c = '#'
    · subst hc
      obtain ⟨k, hscan, hcopy, hk⟩ := h.next.part (f := fun _ => false) (g := fun _ => true) rfl
      rw [List.takeWhile_eq_self_iff.mpr fun _ _ => rfl] at hcopy
      rw [List.dropWhile_eq_nil_iff.mpr fun _ _ => rfl] at hk
      refine ⟨k, ?_, hk⟩
      simp [hscan, hcopy, Uri.parseFragment]
    · have hskip : u.parseFragment (c :: t) = (true, u, c :: t) := by
        rw [Uri.parseFragment]
        simpa using hc
      rw [hskip]
      refine ⟨p, ?_, h⟩
      simp [hc]

theorem At.parseQuery (h : s.At p t) : s.Stage (s.parseQuery u p) (u.parseQuery t) := by
  unfold CString.parseQuery
  rw [h.peek_head]
  cases t with
  | nil => exact ⟨p, rfl, h⟩
  | cons c t =>
    rw [Uri.parseQuery]
    by_cases hc : c = '?' ∨ c = '#'
    · obtain ⟨k, hscan, hcopy, hk⟩ := h.next.part (f := (· == '#')) (g := (· != '#')) rfl
      simp only [List.headD_cons, Option.bind_eq_bind, Option.bind_some, if_pos hc, hscan, hcopy]
      by_cases hnil : t.takeWhile (· != '#') = []
      · rw [if_pos hnil, if_pos hnil]
        exact hk.parseFragment
      · rw [if_neg hnil, if_neg hnil]
        obtain ⟨b, m⟩ := Uri.insertParams u.mQueryMap (split (t.takeWhile (· != '#')) '&')
        cases b with
        | true => exact hk.parseFragment
        | false => exact ⟨k, rfl, hk⟩
    · refine ⟨p, ?_, ?_⟩
      · simp [hc]
      · simpa [hc] using h

theorem At.parsePath (h : s.At p t) : s.Stage (s.parsePath u p) (u.parsePath t) := by
  unfold CString.parsePath
  rw [h.peek_head]
  cases t with
  | nil => exact ⟨p, rfl, h⟩
  | cons c t =>
    rw [Uri.parsePath]
    by_cases hc : Uri.isDelimiter c
    · obtain ⟨k, hscan, hcopy, hk⟩ := h.next.part (f := fun c => c == '?' || c == '#')
        (g := fun c => c != '?' && c != '#') (funext fun c => Bool.not_or ..)
      simp only [List.headD_cons, Option.bind_eq_bind, Option.bind_some, if_pos hc, hscan, hcopy]
      exact hk.parseQuery
    · refine ⟨p, ?_, ?_⟩
      · simp [hc]
      · simpa [hc] using h

/-! ## The parser -/

theorem At.copy_to {k : Nat} (h : s.At p t) (hk : s.At k r) :
    s.copy p (k - p) = some (t.take (t.length - r.length)) := by
  have hlength : k - p = (t.take (t.length - r.length)).length := by
    have hp := h.le
    have hr := hk.le
    rw [List.length_take]
    omega
  rw [hlength]
  rw [← List.take_append_drop (t.length - r.length) t] at h
  exact h.copy

/-- The parser on pointers is the one on texts, up to the port that ends the text. -/
theorem parseFromArray_eq (s : CString) (u : Uri) : s.parseFromArray u =
    if ':' ∈ authority s.text ∧ behind s.text = [] then none
    else some (u.parseFromArray s.text) := by
  have hzero : s.At 0 ([] ++ s.text) := s.at_zero
  obtain ⟨k, hhead, hk⟩ := At.scanHead (u := u) hzero
  have haddr : s.At k (authority s.text ++ behind s.text) := by
    rw [authority, behind, List.takeWhile_append_dropWhile]
    rwa [Uri.scanHead_eq] at hk
  have hscan : s.scanAddress none k = some (k + (authority s.text).length,
      (Uri.splitPos (authority s.text)).map fun r => k + r.1.length) := by
    rw [hk.scanAddress, Option.or_none, Uri.scanHead_eq]
    rfl
  have hparse : u.parseFromArray s.text =
      let out := ((u.scanHead [] s.text).1.setAddress (authority s.text) (behind s.text)).parsePath
        (behind s.text)
      (out.1, if out.1 then
        { out.2.1 with mUrl := (behind s.text).take ((behind s.text).length - out.2.2.length) }
        else out.2.1) := by
    unfold authority behind
    rw [Uri.parseFromArray, Uri.parseAuthority, Uri.scanHead_eq]
    dsimp only
    generalize Uri.parsePath _ _ = out
    obtain ⟨b, v, p⟩ := out
    cases b with
    | true => rfl
    | false => rfl
  unfold CString.parseFromArray
  rw [hzero.skipSpace, hparse]
  simp only [List.length_nil, Nat.add_zero] at hhead
  simp only [Option.bind_eq_bind, Option.bind_some, hhead, hscan,
    haddr.setAddress (behind_tail s.text)]
  split
  · rfl
  · obtain ⟨q, hq, hat⟩ := haddr.advance.parsePath
      (u := (u.scanHead [] s.text).1.setAddress (authority s.text) (behind s.text))
    rw [Option.bind_some, hq]
    have hcopy := haddr.advance.copy_to hat
    generalize Uri.parsePath _ (behind s.text) = out at hcopy
    obtain ⟨b, v, p⟩ := out
    cases b with
    | true =>
      simp only [Option.bind_some, hcopy]
      rfl
    | false => rfl

/-- **No read behind the NUL**, exactly when the host has no port or the port is not the end of
the text. -/
theorem inBounds_iff (s : CString) (u : Uri) : (s.parseFromArray u).isSome ↔
    (':' ∈ authority s.text → behind s.text ≠ []) := by
  rw [parseFromArray_eq]
  by_cases h : ':' ∈ authority s.text ∧ behind s.text = []
  · rw [if_pos h]
    simp [h.1, h.2]
  · rw [if_neg h]
    simpa using h

theorem not_inBounds : ¬ ∀ (s : CString) (u : Uri), (s.parseFromArray u).isSome := by
  intro h
  have hread := h ⟨"h:1".toList, by decide⟩ (Uri.new 0)
  rw [parseFromArray_eq, if_pos (by decide)] at hread
  cases hread

end CString

end Wish.Http
