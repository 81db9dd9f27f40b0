import Wish.Net.Http.Uri
import Mathlib.Data.List.TakeWhile

/-!
# Composing a URL and parsing it again

`Components` are the parts drawn in `uri.h`, `Components.text` the URL composed of them. The
third loop of `parse_from_array` takes whatever follows the authority for the path, and whatever
follows the path for the query, so `parsed_iff`: the parts come back exactly when none of them
is there without the part in front of it.
-/

namespace Wish

open Http (Text)

variable {separator : Char} {last f rest : Text}

/-! ## `split` -/

theorem splitFrom_append (h : separator ∉ f) :
    splitFrom separator last (f ++ separator :: rest) =
      (last ++ f) :: splitFrom separator [] rest := by
  induction f generalizing last with
  | nil => rw [List.nil_append, splitFrom, if_pos rfl, List.append_nil]
  | cons c f ih =>
    have hc : c ≠ separator := fun hc => h (hc ▸ List.mem_cons_self)
    rw [List.cons_append, splitFrom, if_neg hc, ih fun hf => h (List.mem_cons_of_mem c hf),
      List.append_assoc, List.singleton_append]

theorem splitFrom_last (h : separator ∉ f) (hne : last ++ f ≠ []) :
    splitFrom separator last f = [last ++ f] := by
  induction f generalizing last with
  | nil =>
    rw [List.append_nil] at hne ⊢
    rw [splitFrom, if_neg hne]
  | cons c f ih =>
    have hc : c ≠ separator := fun hc => h (hc ▸ List.mem_cons_self)
    have happ : last ++ [c] ++ f = last ++ c :: f := by simp
    rw [splitFrom, if_neg hc, ih (fun hf => h (List.mem_cons_of_mem c hf)) (by rwa [happ]), happ]

/-- The parts of a text, with the separator between them. -/
def joinWith (separator : Char) : List Text → Text
  | [] => []
  | [f] => f
  | f :: fs => f ++ separator :: joinWith separator fs

theorem split_joinWith {fs : List Text} (h : ∀ f ∈ fs, separator ∉ f ∧ f ≠ []) :
    split (joinWith separator fs) separator = fs := by
  induction fs with
  | nil => rfl
  | cons f fs ih =>
    obtain ⟨hf, hne⟩ := h f List.mem_cons_self
    have hrest := ih fun g hg => h g (List.mem_cons_of_mem f hg)
    cases fs with
    | nil => exact splitFrom_last hf hne
    | cons g fs =>
      rw [joinWith, split, splitFrom_append hf]
      · exact congrArg (f :: ·) hrest
      · exact nofun

end Wish

namespace Wish.Http

/-! ## The parts -/

/-- None of the characters `cs` is in it. -/
def Avoids (cs : List Char) (t : Text) : Prop := ∀ c ∈ t, c ∉ cs

structure Components where
  schema : Option Text
  userInfo : Option Text
  host : Text
  port : Option UInt16
  path : Option Text
  query : Option (List (Text × Text))
  fragment : Option Text
  schema_avoids : ∀ t ∈ schema, Avoids ['@', ':'] t
  userInfo_avoids : ∀ t ∈ userInfo, Avoids ['@', '/', '?', '#'] t
  host_avoids : Avoids ['@', ':', '/', '?', '#'] host
  host_ne_nil : host ≠ []
  path_avoids : ∀ t ∈ path, Avoids ['@', ':', '?', '#'] t
  query_ne_nil : ∀ ps ∈ query, ps ≠ []
  query_keys : ∀ ps ∈ query, (ps.map Prod.fst).Nodup
  query_avoids : ∀ ps ∈ query, ∀ p ∈ ps, Avoids ['@', ':', '&', '=', '#'] p.1 ∧
    Avoids ['@', ':', '&', '=', '#'] p.2
  query_pairs : ∀ ps ∈ query, ∀ p ∈ ps, p.1 ≠ [] ∧ p.2 ≠ []
  fragment_avoids : ∀ t ∈ fragment, Avoids ['@', ':'] t

def pairText (p : Text × Text) : Text := p.1 ++ '=' :: p.2

def queryText (ps : List (Text × Text)) : Text := joinWith '&' (ps.map pairText)

namespace Components

variable (c : Components)

def address : Text := c.host ++ between [':'] [] (c.port.map fun n => Nat.toDigits 10 n.toNat)

def tail : Text :=
  between ['/'] [] c.path ++ (between ['?'] [] (c.query.map queryText) ++
    between ['#'] [] c.fragment)

def text : Text :=
  between [] [':', '/', '/'] c.schema ++ (between [] ['@'] c.userInfo ++ (c.address ++ c.tail))

/-- No part after the authority is there without the one in front of it (a fragment may be
there, if it is empty). -/
def Stacked : Prop :=
  (c.query.isSome → c.path.isSome) ∧ (c.fragment.getD [] ≠ [] → c.query.isSome)

end Components

/-- The call has returned `true`, and the object has the parts. -/
structure Parsed (c : Components) (r : Bool × Uri) : Prop where
  returned : r.1 = true
  schema : r.2.schema = c.schema.getD []
  userInfo : r.2.userInfo = c.userInfo.getD []
  host : r.2.host = c.host
  port : r.2.port = c.port.getD 80
  path : r.2.path = c.path.getD []
  query : r.2.query = (c.query.map queryText).getD []
  params : ∀ k v, r.2.params.get? k = some v ↔ (k, v) ∈ c.query.getD []
  fragment : r.2.fragment = c.fragment.getD []

/-! ## The query -/

theorem Avoids.not_mem {cs : List Char} {t : Text} (h : Avoids cs t) {c : Char} (hc : c ∈ cs) :
    c ∉ t := fun ht => h c ht hc

theorem Avoids.ne {cs : List Char} {t : Text} (h : Avoids cs t) {c d : Char} (hc : c ∈ cs)
    (hd : d ∈ t) : d ≠ c := by
  rintro rfl
  exact h d hd hc

theorem Avoids.not_delimiter {cs : List Char} {t : Text} (h : Avoids cs t)
    (hcs : ['/', '?', '#'] ⊆ cs) : ∀ d ∈ t, ¬ Uri.isDelimiter d := by
  intro d hd hdel
  rcases isDelimiter_iff.mp hdel with rfl | rfl | rfl
  all_goals exact h _ hd (hcs (by decide))

theorem split_pairText {p : Text × Text} (hk : '=' ∉ p.1) (hv : '=' ∉ p.2) (hne : p.2 ≠ []) :
    split (pairText p) '=' = [p.1, p.2] := by
  have hlast : [] ++ p.2 ≠ [] := hne
  rw [split, pairText, splitFrom_append hk, splitFrom_last hv hlast]
  rfl

/-- The pairs of the query are added to the map. -/
theorem insertParams_pairs {ps : List (Text × Text)} {m : OrdMap Text Text}
    (hps : ∀ p ∈ ps, '=' ∉ p.1 ∧ '=' ∉ p.2 ∧ p.2 ≠ []) (hkeys : (ps.map Prod.fst).Nodup)
    (hm : ∀ p ∈ ps, m.get? p.1 = none) :
    ∃ m', Uri.insertParams m (ps.map pairText) = (true, m') ∧
      ∀ k v, m'.get? k = some v ↔ m.get? k = some v ∨ (k, v) ∈ ps := by
  induction ps generalizing m with
  | nil => exact ⟨m, rfl, by simp⟩
  | cons p ps ih =>
    obtain ⟨hk, hv, hne⟩ := hps p List.mem_cons_self
    rw [List.map_cons, List.nodup_cons] at hkeys
    have hnone := hm p List.mem_cons_self
    obtain ⟨m', hins, hm'⟩ := ih (m := m.insert p.1 p.2)
      (fun q hq => hps q (List.mem_cons_of_mem p hq)) hkeys.2 fun q hq => by
        have hne : q.1 ≠ p.1 := fun heq => hkeys.1 (heq ▸ List.mem_map_of_mem hq)
        rw [OrdMap.get?_insert_of_ne hne]
        exact hm q (List.mem_cons_of_mem p hq)
    refine ⟨m', ?_, fun k v => ?_⟩
    · rw [List.map_cons, Uri.insertParams, split_pairText hk hv hne]
      exact hins
    · rw [hm', List.mem_cons]
      by_cases hkp : k = p.1
      · subst hkp
        rw [OrdMap.get?_insert_self hnone, hnone]
        simp only [Option.some.injEq, reduceCtorEq, false_or, Prod.ext_iff, true_and, eq_comm]
      · rw [OrdMap.get?_insert_of_ne hkp]
        simp only [Prod.ext_iff, hkp, false_and, false_or]

theorem mem_joinWith {separator c : Char} {fs : List Text} (h : c ∈ joinWith separator fs) :
    c = separator ∨ ∃ f ∈ fs, c ∈ f := by
  induction fs with
  | nil => cases h
  | cons f fs ih =>
    cases fs with
    | nil => exact Or.inr ⟨f, List.mem_cons_self, h⟩
    | cons g fs =>
      rcases List.mem_append.mp h with h | h
      · exact Or.inr ⟨f, List.mem_cons_self, h⟩
      · rcases List.mem_cons.mp h with h | h
        · exact Or.inl h
        · exact (ih h).imp_right fun ⟨f', hf', hc⟩ => ⟨f', List.mem_cons_of_mem f hf', hc⟩

namespace Components

variable {c : Components} {ps : List (Text × Text)}

theorem not_mem_queryText (hq : c.query = some ps) {d : Char} (hd : d ∈ ['@', ':', '#']) :
    d ∉ queryText ps := by
  intro hmem
  have hne : d ≠ '&' ∧ d ≠ '=' := by
    simp only [List.mem_cons, List.not_mem_nil, or_false] at hd
    rcases hd with rfl | rfl | rfl <;> exact ⟨by decide, by decide⟩
  have hsub : d ∈ ['@', ':', '&', '=', '#'] := by
    simp only [List.mem_cons, List.not_mem_nil, or_false] at hd
    rcases hd with rfl | rfl | rfl <;> decide
  rcases mem_joinWith hmem with rfl | ⟨f, hf, hdf⟩
  · exact hne.1 rfl
  · obtain ⟨p, hp, rfl⟩ := List.mem_map.mp hf
    obtain ⟨hk, hv⟩ := c.query_avoids ps hq p hp
    rcases List.mem_append.mp hdf with hdf | hdf
    · exact hk.not_mem hsub hdf
    · rcases List.mem_cons.mp hdf with rfl | hdf
      · exact hne.2 rfl
      · exact hv.not_mem hsub hdf

theorem queryText_ne_nil (hq : c.query = some ps) : queryText ps ≠ [] := by
  cases ps with
  | nil => exact absurd rfl (c.query_ne_nil [] hq)
  | cons p ps =>
    have hk := (c.query_pairs _ hq p List.mem_cons_self).1
    cases ps with
    | nil => simp [queryText, joinWith, pairText]
    | cons q ps => simp [queryText, joinWith, pairText]

/-- The query of the composed text is read back. -/
theorem insertParams_split (hq : c.query = some ps) :
    ∃ m, Uri.insertParams .empty (split (queryText ps) '&') = (true, m) ∧
      ∀ k v, m.get? k = some v ↔ (k, v) ∈ ps := by
  have hsplit : split (queryText ps) '&' = ps.map pairText := by
    refine split_joinWith fun f hf => ?_
    obtain ⟨p, hp, rfl⟩ := List.mem_map.mp hf
    obtain ⟨hk, hv⟩ := c.query_avoids ps hq p hp
    refine ⟨fun hmem => ?_, by simp [pairText]⟩
    rcases List.mem_append.mp hmem with hmem | hmem
    · exact hk.not_mem (by decide) hmem
    · rcases List.mem_cons.mp hmem with hc | hmem
      · cases hc
      · exact hv.not_mem (by decide) hmem
  have hps : ∀ p ∈ ps, '=' ∉ p.1 ∧ '=' ∉ p.2 ∧ p.2 ≠ [] := fun p hp =>
    ⟨(c.query_avoids ps hq p hp).1.not_mem (by decide),
      (c.query_avoids ps hq p hp).2.not_mem (by decide), (c.query_pairs ps hq p hp).2⟩
  obtain ⟨m, hins, hm⟩ := insertParams_pairs (m := .empty) hps (c.query_keys ps hq) fun _ _ => rfl
  refine ⟨m, by rw [hsplit, hins], fun k v => ?_⟩
  rw [hm, OrdMap.get?_empty]
  simp

end Components

/-! ## The third loop -/

namespace Uri

variable {u : Uri} {d : Char} {t rest : Text}

theorem parsePath_eq (hd : isDelimiter d) (ht : ∀ c ∈ t, c ≠ '?' ∧ c ≠ '#')
    (hr : ∀ c ∈ rest.head?, c = '?' ∨ c = '#') :
    u.parsePath (d :: (t ++ rest)) = { u with mPath := t }.parseQuery rest := by
  obtain ⟨htake, hdrop⟩ := span_append (f := fun c => c != '?' && c != '#') (t := t) (r := rest)
    (fun c hc => by simpa using ht c hc)
    (fun c hc => by rcases hr c hc with rfl | rfl <;> decide)
  rw [parsePath, if_pos hd, htake, hdrop]

theorem parseQuery_eq {m : OrdMap Text Text} (hd : d = '?' ∨ d = '#') (ht : '#' ∉ t) (hne : t ≠ [])
    (hr : ∀ c ∈ rest.head?, c = '#') (hm : insertParams u.mQueryMap (split t '&') = (true, m)) :
    u.parseQuery (d :: (t ++ rest)) =
      { u with mQuery := t, mQueryMap := m }.parseFragment rest := by
  obtain ⟨htake, hdrop⟩ := span_append (f := (· != '#')) (t := t) (r := rest)
    (fun c hc => by simpa using fun heq : c = '#' => ht (heq ▸ hc))
    (fun c hc => by rw [hr c hc]; decide)
  rw [parseQuery, if_pos hd]
  simp only [htake, hdrop]
  rw [if_neg hne, hm]

/-- What the later stages keep. -/
theorem path_parseQuery (u : Uri) (p : Text) : (u.parseQuery p).2.1.mPath = u.mPath := by
  have hfrag : ∀ (u : Uri) (p : Text), (u.parseFragment p).2.1.mPath = u.mPath := by
    intro u p
    unfold parseFragment
    split
    · rfl
    · rfl
  unfold parseQuery
  split
  · rfl
  · split
    · simp only
      split
      · exact hfrag _ _
      · split
        · exact hfrag _ _
        · rfl
    · rfl

theorem query_parseQuery (u : Uri) (hd : d = '?' ∨ d = '#') (p : Text) :
    (u.parseQuery (d :: p)).2.1.mQuery = p.takeWhile (· != '#') := by
  have hfrag : ∀ (u : Uri) (p : Text), (u.parseFragment p).2.1.mQuery = u.mQuery := by
    intro u p
    unfold parseFragment
    split
    · rfl
    · rfl
  rw [parseQuery, if_pos hd]
  simp only
  split
  · exact hfrag _ _
  · split
    · exact hfrag _ _
    · rfl

/-- The fragment is behind the delimiters of the query and of the fragment. -/
theorem length_fragment_parseQuery (u : Uri) (hu : u.mFragment = []) (p : Text) :
    (u.parseQuery p).2.1.mFragment.length + 2 ≤ p.length ∨
      (u.parseQuery p).2.1.mFragment = [] := by
  have hfrag : ∀ (u : Uri) (p : Text), u.mFragment = [] →
      (u.parseFragment p).2.1.mFragment.length + 1 ≤ p.length ∨
        (u.parseFragment p).2.1.mFragment = [] := by
    intro u p hu
    unfold parseFragment
    split
    · exact Or.inl (Nat.le_refl _)
    · exact Or.inr hu
  unfold parseQuery
  split
  · exact Or.inr hu
  · next c p =>
    have hdrop := (List.dropWhile_suffix (· != '#') (l := p)).length_le
    split
    · simp only
      split
      · refine Or.imp_left (fun hle => ?_) (hfrag _ _ ?_)
        · rw [List.length_cons]
          omega
        · exact hu
      · split
        · refine Or.imp_left (fun hle => ?_) (hfrag _ _ ?_)
          · rw [List.length_cons]
            omega
          · exact hu
        · exact Or.inr hu
    · exact Or.inr hu

end Uri

/-! ## The authority -/

theorem unmarked_cons {d : Char} {p : Text} (hat : d ≠ '@') (hcolon : d = ':' → ¬ ['/', '/'] <+: p)
    (hp : Unmarked p) : Unmarked (d :: p) := by
  refine ⟨fun hmem => ?_, fun hi => ?_⟩
  · rcases List.mem_cons.mp hmem with heq | hmem
    · exact hat heq.symm
    · exact hp.1 hmem
  · rcases List.infix_cons_iff.mp hi with ⟨q, hq⟩ | hi
    · cases hq
      exact hcolon rfl ⟨q, rfl⟩
    · exact hp.2 hi

theorem unmarked_append {t p : Text} (ht : ∀ d ∈ t, d ≠ '@' ∧ d ≠ ':') (hp : Unmarked p) :
    Unmarked (t ++ p) := by
  induction t with
  | nil => exact hp
  | cons d t ih =>
    obtain ⟨hat, hcolon⟩ := ht d List.mem_cons_self
    exact unmarked_cons hat (fun heq => absurd heq hcolon)
      (ih fun e he => ht e (List.mem_cons_of_mem d he))

theorem unmarked_nil : Unmarked [] := ⟨by decide, by decide⟩

theorem digits_toDigits (n : Nat) : digits (Nat.toDigits 10 n) = n := by
  have htake : (Nat.toDigits 10 n).takeWhile Char.isDigit = Nat.toDigits 10 n := by
    refine List.takeWhile_eq_self_iff.mpr fun d hd => ?_
    exact Nat.isDigit_of_mem_toDigits (by omega) (Nat.le_refl _) hd
  rw [digits, htake, Nat.ofDigitChars_ten_toDigits]

theorem isSpace_of_isDigit {d : Char} (hd : d.isDigit) : isSpace d = false := by
  by_contra hsp
  simp only [Bool.not_eq_false, isSpace, Bool.or_eq_true, decide_eq_true_eq] at hsp
  rcases hsp with ((((rfl | rfl) | rfl) | rfl) | rfl) | rfl
  all_goals exact absurd hd (by decide)

theorem signed_of_isDigit {d : Char} {ds : Text} (hd : d.isDigit) :
    signed (d :: ds) = digits (d :: ds) := by
  unfold signed
  split
  · next heq =>
    cases heq
    exact absurd hd (by decide)
  · next heq =>
    cases heq
    exact absurd hd (by decide)
  · rfl

/-- A number is read back. -/
theorem atoi_toDigits (n : UInt16) : atoi (Nat.toDigits 10 n.toNat) = n := by
  have hval := digits_toDigits n.toNat
  have hlt := n.toNat_lt
  have hstrtol : strtol (Nat.toDigits 10 n.toNat) = n.toNat := by
    cases hs : Nat.toDigits 10 n.toNat with
    | nil => exact absurd hs Nat.toDigits_ne_nil
    | cons d ds =>
      have hd : d.isDigit := by
        refine Nat.isDigit_of_mem_toDigits (b := 10) (n := n.toNat) (by omega) (Nat.le_refl _) ?_
        rw [hs]
        exact List.mem_cons_self
      rw [hs] at hval
      rw [strtol, List.dropWhile_cons, isSpace_of_isDigit hd]
      simp only [Bool.false_eq_true, if_false]
      rw [signed_of_isDigit hd, hval]
      omega
  have hmod : ((n.toNat : Int) % 2 ^ 16).toNat = n.toNat := by omega
  rw [atoi, hstrtol, UInt16.ofInt, hmod, UInt16.ofNat_toNat]

namespace Components

theorem address_not_delimiter (c : Components) : ∀ d ∈ c.address, ¬ Uri.isDelimiter d := by
  intro d hd
  rw [isDelimiter_iff]
  rcases List.mem_append.mp hd with hd | hd
  · exact isDelimiter_iff.not.mp (c.host_avoids.not_delimiter (by decide) d hd)
  · cases hp : c.port with
    | none =>
      rw [hp] at hd
      cases hd
    | some n =>
      rw [hp, Option.map_some, between, List.append_nil] at hd
      rcases List.mem_cons.mp hd with rfl | hd
      · decide
      · have hdig := Nat.isDigit_of_mem_toDigits (by omega) (Nat.le_refl _) hd
        rintro (rfl | rfl | rfl)
        all_goals exact absurd hdig (by decide)

theorem tail_tail (c : Components) : Tail c.tail := by
  rw [Components.tail]
  cases c.path with
  | some t => exact fun d hd => by cases hd; decide
  | none =>
    cases c.query with
    | some ps => exact fun d hd => by cases hd; decide
    | none =>
      cases c.fragment with
      | some f => exact fun d hd => by cases hd; decide
      | none => exact tail_nil

/-- There is no mark and no colon behind the authority. -/
theorem not_mem_tail (c : Components) : ∀ d ∈ c.tail, d ≠ '@' ∧ d ≠ ':' := by
  have hpart : ∀ {b : Char} {o : Option Text}, b ≠ '@' ∧ b ≠ ':' →
      (∀ t ∈ o, '@' ∉ t ∧ ':' ∉ t) → ∀ d ∈ between [b] [] o, d ≠ '@' ∧ d ≠ ':' := by
    intro b o hb ho d hd
    cases o with
    | none => cases hd
    | some t =>
      rw [between, List.append_nil] at hd
      rcases List.mem_cons.mp hd with rfl | hd
      · exact hb
      · refine ⟨?_, ?_⟩
        · rintro rfl
          exact (ho t rfl).1 hd
        · rintro rfl
          exact (ho t rfl).2 hd
  intro d hd
  rcases List.mem_append.mp hd with hd | hd
  · exact hpart (by decide) (fun t ht => ⟨(c.path_avoids t ht).not_mem (by decide),
      (c.path_avoids t ht).not_mem (by decide)⟩) d hd
  · rcases List.mem_append.mp hd with hd | hd
    · refine hpart (by decide) (fun t ht => ?_) d hd
      obtain ⟨ps, hps, rfl⟩ := Option.map_eq_some_iff.mp ht
      exact ⟨not_mem_queryText hps (by decide), not_mem_queryText hps (by decide)⟩
    · exact hpart (by decide) (fun t ht => ⟨(c.fragment_avoids t ht).not_mem (by decide),
        (c.fragment_avoids t ht).not_mem (by decide)⟩) d hd

theorem unmarked_address_tail (c : Components) : Unmarked (c.address ++ c.tail) := by
  have htail : Unmarked c.tail := by
    have happ := unmarked_append c.not_mem_tail unmarked_nil
    rwa [List.append_nil] at happ
  have hhost : ∀ d ∈ c.host, d ≠ '@' ∧ d ≠ ':' := by
    intro d hd
    have hav := c.host_avoids d hd
    simp only [List.mem_cons, List.not_mem_nil, or_false, not_or] at hav
    exact ⟨hav.1, hav.2.1⟩
  rw [address, List.append_assoc]
  refine unmarked_append hhost ?_
  cases c.port with
  | none => exact htail
  | some n =>
    rw [Option.map_some, between, List.append_nil]
    have hdig : ∀ d ∈ Nat.toDigits 10 n.toNat, d.isDigit := fun d hd =>
      Nat.isDigit_of_mem_toDigits (by omega) (Nat.le_refl _) hd
    refine unmarked_cons (by decide) (fun _ hpre => ?_) (unmarked_append (fun d hd => ?_) htail)
    · -- a digit follows the colon
      cases hs : Nat.toDigits 10 n.toNat with
      | nil => exact absurd hs Nat.toDigits_ne_nil
      | cons d ds =>
        rw [hs] at hpre hdig
        obtain ⟨q, hq⟩ := hpre
        obtain ⟨rfl, -⟩ := List.cons.inj hq
        exact absurd (hdig '/' List.mem_cons_self) (by decide)
    · have hd' := hdig d hd
      refine ⟨?_, ?_⟩
      · rintro rfl
        exact absurd hd' (by decide)
      · rintro rfl
        exact absurd hd' (by decide)

/-- The object after the first two loops. -/
def authority (c : Components) (m : UInt16) : Uri :=
  { Uri.new m with
    mSchema := c.schema.getD []
    mUserInfo := c.userInfo.getD []
    mHost := c.host
    mPort := c.port.getD 80 }

theorem setAddress_address (c : Components) (u : Uri) :
    u.setAddress c.address [] = { u with mHost := c.host, mPort := c.port.getD 80 } := by
  have hhost : ':' ∉ c.host := c.host_avoids.not_mem (by decide)
  rw [address]
  cases c.port with
  | none =>
    rw [Option.map_none, between, List.append_nil, Uri.setAddress, Uri.splitPos_eq_none hhost]
    rfl
  | some n =>
    have hport : ':' ∉ Nat.toDigits 10 n.toNat := fun hmem =>
      absurd (Nat.isDigit_of_mem_toDigits (by omega) (Nat.le_refl _) hmem) (by decide)
    rw [Option.map_some, between, List.append_nil, List.singleton_append, Uri.setAddress,
      Uri.splitPos_append hport]
    simp only
    rw [List.append_nil, List.take_of_length_le (by omega), atoi_toDigits]
    rfl

theorem parseAuthority_text (c : Components) (m : UInt16) :
    (Uri.new m).parseAuthority c.text = (c.authority m, c.tail) := by
  have hs : ∀ t ∈ c.schema, Unmarked t := by
    intro t ht
    have happ := unmarked_append (t := t) (fun d hd => ?_) unmarked_nil
    · rwa [List.append_nil] at happ
    · have hav := c.schema_avoids t ht d hd
      simp only [List.mem_cons, List.not_mem_nil, or_false, not_or] at hav
      exact hav
  have hu : ∀ t ∈ c.userInfo, Unmarked t := by
    intro t ht
    have hav := c.userInfo_avoids t ht
    exact Plain.unmarked fun d hd => ⟨hav.not_delimiter (by decide) d hd, hav.ne (by decide) hd⟩
  rw [text, parseAuthority_parts hs hu c.address_not_delimiter c.tail_tail c.unmarked_address_tail,
    setAddress_address]
  rfl

/-! ## The parts behind the authority -/

variable {c : Components}

theorem parsePath_tail (h : c.Stacked) {u : Uri} (hp : u.mPath = []) (hq : u.mQuery = [])
    (hm : u.mQueryMap = .empty) (hf : u.mFragment = []) :
    ∃ u', u.parsePath c.tail = (true, u', []) ∧ u'.mPath = c.path.getD [] ∧
      u'.mQuery = (c.query.map queryText).getD [] ∧
      (∀ k v, u'.mQueryMap.get? k = some v ↔ (k, v) ∈ c.query.getD []) ∧
      u'.mFragment = c.fragment.getD [] := by
  obtain ⟨hpath, hquery⟩ := h
  have hempty : ∀ k v, OrdMap.empty.get? k = some v ↔ (k, v) ∈ ([] : List (Text × Text)) := by simp
  -- without a query there may only be an empty fragment
  have hfrag : c.query = none → c.fragment = none ∨ c.fragment = some [] := by
    intro hnone
    rw [hnone] at hquery
    cases hcf : c.fragment with
    | none => exact Or.inl rfl
    | some f =>
      rw [hcf] at hquery
      have hnil : f = [] := by simpa using hquery
      exact Or.inr (congrArg some hnil)
  have hstart : ∀ (b : Char) (o : Option Text), ∀ d ∈ (between [b] [] o).head?, d = b := by
    intro b o d hd
    cases o with
    | none => cases hd
    | some t =>
      cases hd
      rfl
  rw [tail]
  cases hcp : c.path with
  | none =>
    have hcq : c.query = none := by
      cases hcq : c.query with
      | none => rfl
      | some ps => simp [hcp, hcq] at hpath
    rw [hcq]
    rcases hfrag hcq with hcf | hcf
    · rw [hcf]
      exact ⟨u, rfl, hp, hq, hm ▸ hempty, hf⟩
    · rw [hcf]
      exact ⟨{ u with mPath := [] }, rfl, rfl, hq, hm ▸ hempty, hf⟩
  | some t =>
    have ht : ∀ d ∈ t, d ≠ '?' ∧ d ≠ '#' := fun d hd =>
      ⟨(c.path_avoids t hcp).ne (by decide) hd, (c.path_avoids t hcp).ne (by decide) hd⟩
    rw [between, List.append_nil, List.singleton_append, List.cons_append]
    cases hcq : c.query with
    | none =>
      have hnone : between ['?'] [] (Option.map queryText none) = [] := rfl
      rw [hnone, List.nil_append,
        Uri.parsePath_eq (d := '/') rfl ht fun d hd => Or.inr (hstart '#' c.fragment d hd)]
      rcases hfrag hcq with hcf | hcf
      · rw [hcf]
        exact ⟨_, rfl, rfl, hq, hm ▸ hempty, hf⟩
      · rw [hcf]
        exact ⟨_, rfl, rfl, rfl, hm ▸ hempty, hf⟩
    | some ps =>
      obtain ⟨m, hins, hget⟩ := insertParams_split hcq
      rw [Option.map_some, between, List.append_nil, List.singleton_append, List.cons_append,
        Uri.parsePath_eq (d := '/') rfl ht fun d hd => Or.inl (by cases hd; rfl),
        Uri.parseQuery_eq (Or.inl rfl) (not_mem_queryText hcq (by decide)) (queryText_ne_nil hcq)
          (hstart '#' c.fragment) (hm ▸ hins)]
      cases c.fragment with
      | none => exact ⟨_, rfl, rfl, rfl, hget, hf⟩
      | some f => exact ⟨_, rfl, rfl, rfl, hget, List.append_nil f⟩

/-- The query is not taken for the path. -/
theorem path_isSome_of_parsed {u : Uri} (hpath : (u.parsePath c.tail).2.1.mPath = c.path.getD [])
    (hquery : (u.parsePath c.tail).2.1.mQuery = (c.query.map queryText).getD [])
    (h : c.query.isSome) : c.path.isSome := by
  obtain ⟨ps, hcq⟩ := Option.isSome_iff_exists.mp h
  cases hcp : c.path with
  | some t => rfl
  | none =>
    have htail : c.tail = '?' :: (queryText ps ++ between ['#'] [] c.fragment) := by
      rw [tail, hcp, hcq]
      simp [between]
    have hdelim : Uri.isDelimiter '?' := rfl
    have hhash : '#' ∉ queryText ps := not_mem_queryText hcq (by decide)
    cases hqt : queryText ps with
    | nil => exact absurd hqt (queryText_ne_nil hcq)
    | cons k qs =>
      rw [hqt, List.cons_append] at htail
      rw [hqt, List.mem_cons, not_or] at hhash
      rw [htail, Uri.parsePath, if_pos hdelim, Uri.path_parseQuery, hcp] at hpath
      rw [htail, Uri.parsePath, if_pos hdelim, hcq] at hquery
      have hk : k = '?' := by
        by_contra hk
        have hkeep : (k != '?' && k != '#') = true := by simpa using ⟨hk, fun heq => hhash.1 heq.symm⟩
        rw [List.takeWhile_cons, hkeep] at hpath
        cases hpath
      subst hk
      rw [List.dropWhile_cons_of_neg (by decide), Uri.query_parseQuery _ (Or.inl rfl),
        (span_append (f := (· != '#')) (fun d hd => ?_) fun d hd => ?_).1] at hquery
      · have hlen := congrArg List.length hquery
        simp [hqt] at hlen
      · simpa using fun heq : d = '#' => hhash.2 (heq ▸ hd)
      · cases hf : c.fragment with
        | none =>
          rw [hf] at hd
          cases hd
        | some f =>
          rw [hf] at hd
          cases hd
          decide

/-- The fragment is not taken for the query, nor for the path. -/
theorem query_isSome_of_parsed {u : Uri} (hu : u.mFragment = [])
    (hfrag : (u.parsePath c.tail).2.1.mFragment = c.fragment.getD [])
    (h : c.fragment.getD [] ≠ []) : c.query.isSome := by
  cases hcq : c.query with
  | some ps => rfl
  | none =>
    obtain ⟨f, hcf⟩ : ∃ f, c.fragment = some f := by
      cases hcf : c.fragment with
      | none =>
        rw [hcf] at h
        exact absurd rfl h
      | some f => exact ⟨f, rfl⟩
    rw [hcf] at hfrag h
    have htail : c.tail = between ['/'] [] c.path ++ '#' :: f := by
      rw [tail, hcq, hcf]
      simp [between]
    have hdelim : Uri.isDelimiter '#' := rfl
    cases hcp : c.path with
    | none =>
      rw [htail, hcp, between, List.nil_append, Uri.parsePath, if_pos hdelim] at hfrag
      have hdrop := (List.dropWhile_suffix (fun d => d != '?' && d != '#') (l := f)).length_le
      rcases Uri.length_fragment_parseQuery
        { u with mPath := f.takeWhile fun d => d != '?' && d != '#' } hu
        (f.dropWhile fun d => d != '?' && d != '#') with hle | hnil
      · have hlen := congrArg List.length hfrag
        simp only [Option.getD_some] at hlen
        omega
      · exact absurd (hfrag.symm.trans hnil) h
    | some t =>
      have ht : ∀ d ∈ t, d ≠ '?' ∧ d ≠ '#' := fun d hd =>
        ⟨(c.path_avoids t hcp).ne (by decide) hd, (c.path_avoids t hcp).ne (by decide) hd⟩
      rw [htail, hcp, between, List.append_nil, List.singleton_append, List.cons_append,
        Uri.parsePath_eq (d := '/') rfl ht fun d hd => Or.inr (by cases hd; rfl)] at hfrag
      rcases Uri.length_fragment_parseQuery { u with mPath := t } hu ('#' :: f) with hle | hnil
      · have hlen := congrArg List.length hfrag
        simp only [Option.getD_some, List.length_cons] at hlen hle
        omega
      · exact absurd (hfrag.symm.trans hnil) h

end Components

/-- What the third loop leaves is what the accessors give. -/
theorem parse_stages (u : Uri) (url : Text) :
    let r := (u.parseAuthority url).1.parsePath (u.parseAuthority url).2
    let q := u.parseFromArray url
    q.1 = r.1 ∧ q.2.path = r.2.1.mPath ∧ q.2.query = r.2.1.mQuery ∧ q.2.params = r.2.1.mQueryMap ∧
      q.2.fragment = r.2.1.mFragment := by
  unfold Uri.parseFromArray
  simp only
  split
  · next heq =>
    rw [heq]
    exact ⟨rfl, rfl, rfl, rfl, rfl⟩
  · next heq =>
    rw [heq]
    exact ⟨rfl, rfl, rfl, rfl, rfl⟩

/-- **The parts come back** exactly when each stands behind the one in front of it. -/
theorem parsed_iff (c : Components) (m : UInt16) :
    Parsed c ((Uri.new m).parseFromArray c.text) ↔ c.Stacked := by
  obtain ⟨hret, hpath, hquery, hparams, hfrag⟩ := parse_stages (Uri.new m) c.text
  have hend := Uri.endpoint_parse (Uri.new m) c.text
  rw [c.parseAuthority_text m] at hret hpath hquery hparams hfrag hend
  constructor
  · intro h
    exact ⟨c.path_isSome_of_parsed (hpath.symm.trans h.path) (hquery.symm.trans h.query),
      c.query_isSome_of_parsed rfl (hfrag.symm.trans h.fragment)⟩
  · intro h
    obtain ⟨u', hu', hp, hq, hm, hf⟩ := c.parsePath_tail h (u := c.authority m) rfl rfl rfl rfl
    rw [hu'] at hret hpath hquery hparams hfrag
    exact {
      returned := hret
      schema := congrArg (·.1) hend
      userInfo := congrArg (·.2.1) hend
      host := congrArg (·.2.2.1) hend
      port := congrArg (·.2.2.2) hend
      path := hpath.trans hp
      query := hquery.trans hq
      params := hparams ▸ hm
      fragment := hfrag.trans hf }

/-- `h?k=v` -/
def Components.noPath : Components where
  schema := none
  userInfo := none
  host := ['h']
  port := none
  path := none
  query := some [(['k'], ['v'])]
  fragment := none
  schema_avoids := nofun
  userInfo_avoids := nofun
  host_avoids := by
    intro d hd
    cases List.mem_singleton.mp hd
    decide
  host_ne_nil := List.cons_ne_nil _ _
  path_avoids := nofun
  query_ne_nil := by
    intro ps hps
    cases hps
    exact nofun
  query_keys := by
    intro ps hps
    cases hps
    simp
  query_avoids := by
    intro ps hps p hp
    cases hps
    cases List.mem_singleton.mp hp
    constructor
    all_goals
      intro d hd
      cases List.mem_singleton.mp hd
      decide
  query_pairs := by
    intro ps hps p hp
    cases hps
    cases List.mem_singleton.mp hp
    exact ⟨nofun, nofun⟩
  fragment_avoids := nofun

/-- The query becomes the path. -/
theorem not_parsed :
    ¬ ∀ (c : Components) (m : UInt16), Parsed c ((Uri.new m).parseFromArray c.text) :=
  fun h => absurd (h .noPath 0).path (by decide)

end Wish.Http
