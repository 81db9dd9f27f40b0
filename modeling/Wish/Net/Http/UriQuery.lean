import Wish.Net.Http.UriCompose
import Wish.Net.Http.UriFound
import Mathlib.Data.List.Basic

/-!
# The parameters of a query

`parse_from_array` splits the query at `'&'` and each part at `'='`, and wants two pieces. But
`split` drops a last piece that is empty, so `k=` is refused and `k=v=` is taken.

* `asked_iff`: the queries of which the parser gives what the grammar asks for.
-/

namespace Wish

open Http (Text)

/-- The pieces of a text, less the last one where it is empty. -/
def parts (str : Text) (separator : Char) : List Text :=
  if (str.splitOn separator).getLast? = some [] then (str.splitOn separator).dropLast
  else str.splitOn separator

end Wish

namespace Wish.Http

/-- The segments of a query, one `&` at its end being ignored. -/
def segments (q : Text) : List Text := parts q '&'

def key (segment : Text) : Text := segment.takeWhile (· != '=')

/-- The text behind the `=`. -/
def value (segment : Text) : Text := (segment.dropWhile (· != '=')).tail

/-- What the query says: it is accepted when each segment has one `=`, and each key has the value
of its first segment. -/
def Asked (q : Text) (ret : Bool) (params : OrdMap Text Text) : Prop :=
  (ret = true ↔ ∀ s ∈ segments q, s.count '=' = 1) ∧
    (ret = true → ∀ k, params.get? k = ((segments q).map fun s => (key s, value s)).lookup k)

/-- What the parser takes: `k=v`, or `k=v=`. -/
def Taken (segment : Text) : Prop :=
  segment.count '=' = 1 ∧ segment.getLast? ≠ some '=' ∨
    segment.count '=' = 2 ∧ segment.getLast? = some '='

/-- What is inserted for it. -/
def inserted (segment : Text) : Text × Text :=
  (key segment, (value segment).takeWhile (· != '='))

/-! ## `split` -/

theorem splitFrom_eq {separator : Char} {last t : Text} (h : separator ∉ last) :
    splitFrom separator last t = parts (last ++ t) separator := by
  induction t generalizing last with
  | nil =>
    rw [List.append_nil, parts, List.splitOn_eq_singleton h, splitFrom]
    simp
  | cons c t ih =>
    rw [splitFrom]
    split
    · next hc =>
      obtain ⟨d, ps, hps⟩ := List.exists_cons_of_ne_nil (List.splitOn_ne_nil separator t)
      rw [hc, ih List.not_mem_nil, parts, parts, List.splitOn_append_cons_self_of_not_mem h,
        List.nil_append, hps, List.getLast?_cons_cons, List.dropLast_cons_cons]
      split
      · rfl
      · rfl
    · next hc =>
      have hlast : separator ∉ last ++ [c] := by
        rw [List.mem_append, List.mem_singleton]
        rintro (hmem | rfl)
        · exact h hmem
        · exact hc rfl
      rw [ih hlast, ← List.append_cons]

theorem split_eq (t : Text) (separator : Char) : split t separator = parts t separator :=
  splitFrom_eq List.not_mem_nil

/-- A text without the separator is one piece, or none. -/
theorem split_of_not_mem {t : Text} {separator : Char} (h : separator ∉ t) :
    split t separator = if t = [] then [] else [t] := by
  split
  · next hnil =>
    rw [hnil]
    rfl
  · next hne => exact splitFrom_last h hne

theorem split_eq_nil_iff {t : Text} {separator : Char} : split t separator = [] ↔ t = [] := by
  constructor
  · intro h
    by_cases hmem : separator ∈ t
    · obtain ⟨f, rest, rfl, hf⟩ := List.eq_append_cons_of_mem hmem
      rw [split, splitFrom_append hf] at h
      cases h
    · rw [split_of_not_mem hmem] at h
      by_contra hne
      rw [if_neg hne] at h
      cases h
  · rintro rfl
    rfl

/-! ## A segment -/

theorem span_sign {k r : Text} (h : '=' ∉ k) :
    (k ++ '=' :: r).takeWhile (· != '=') = k ∧ (k ++ '=' :: r).dropWhile (· != '=') = '=' :: r := by
  refine span_append (fun c hc => ?_) fun c hc => ?_
  · rw [bne_iff_ne]
    rintro rfl
    exact h hc
  · cases hc
    decide

theorem key_append {k r : Text} (h : '=' ∉ k) : key (k ++ '=' :: r) = k := (span_sign h).1

theorem value_append {k r : Text} (h : '=' ∉ k) : value (k ++ '=' :: r) = r :=
  congrArg List.tail (span_sign h).2

theorem takeWhile_of_not_mem {r : Text} (h : '=' ∉ r) : r.takeWhile (· != '=') = r := by
  rw [List.takeWhile_eq_self_iff]
  intro c hc
  rw [bne_iff_ne]
  rintro rfl
  exact h hc

theorem getLast?_eq_iff {r : Text} (h : '=' ∉ r) : r.getLast?.getD '=' = '=' ↔ r = [] := by
  cases hr : r.getLast? with
  | none => simpa using List.getLast?_eq_none_iff.mp hr
  | some c =>
    have hmem := List.mem_of_getLast? hr
    constructor
    · rintro rfl
      exact absurd hmem h
    · rintro rfl
      cases hmem

theorem taken_one {k r : Text} (hk : '=' ∉ k) (hr : '=' ∉ r) :
    Taken (k ++ '=' :: r) ↔ r ≠ [] := by
  rw [Taken, List.count_append, List.count_eq_zero.mpr hk, List.count_cons_self,
    List.count_eq_zero.mpr hr, List.getLast?_append, List.getLast?_cons, Option.some_or,
    ne_eq, Option.some.injEq, getLast?_eq_iff hr]
  simp

theorem taken_two {k v r : Text} (hk : '=' ∉ k) (hv : '=' ∉ v) :
    Taken (k ++ '=' :: (v ++ '=' :: r)) ↔ r = [] := by
  rw [Taken, List.count_append, List.count_eq_zero.mpr hk, List.count_cons_self,
    List.count_append, List.count_eq_zero.mpr hv, List.count_cons_self, List.getLast?_append,
    List.getLast?_cons, Option.some_or, List.getLast?_append, List.getLast?_cons, Option.some_or,
    Option.getD_some, ne_eq, Option.some.injEq]
  constructor
  · rintro (⟨hcount, -⟩ | ⟨hcount, hlast⟩)
    · omega
    · have hr : '=' ∉ r := List.count_eq_zero.mp (by omega)
      exact (getLast?_eq_iff hr).mp hlast
  · rintro rfl
    exact Or.inr ⟨rfl, rfl⟩

theorem not_taken {s : Text} (h : '=' ∉ s) : ¬ Taken s := by
  rw [Taken, List.count_eq_zero.mpr h]
  simp

/-- The pieces are two exactly when the segment is taken. -/
theorem pair?_eq_some_iff {s : Text} {p : Text × Text} :
    Found.pair? s = some p ↔ Taken s ∧ p = inserted s := by
  rw [Uri.pair?_eq_some]
  by_cases hmem : '=' ∈ s
  · obtain ⟨k, r, rfl, hk⟩ := List.eq_append_cons_of_mem hmem
    rw [split, splitFrom_append hk, List.nil_append, ← split, inserted, key_append hk,
      value_append hk]
    by_cases hr : '=' ∈ r
    · obtain ⟨v, r, rfl, hv⟩ := List.eq_append_cons_of_mem hr
      rw [split, splitFrom_append hv, List.nil_append, ← split, (span_sign hv).1, taken_two hk hv]
      simp only [List.cons.injEq, split_eq_nil_iff, Prod.ext_iff]
      constructor
      · rintro ⟨hkey, hvalue, hnil⟩
        exact ⟨hnil, hkey.symm, hvalue.symm⟩
      · rintro ⟨hnil, hkey, hvalue⟩
        exact ⟨hkey.symm, hvalue.symm, hnil⟩
    · rw [taken_one hk hr, takeWhile_of_not_mem hr, split_of_not_mem hr]
      by_cases hnil : r = []
      · simp [hnil]
      · simp [hnil, Prod.ext_iff, eq_comm]
  · rw [split_of_not_mem hmem]
    constructor
    · intro h
      split at h
      · cases h
      · cases h
    · intro h
      exact absurd h.1 (not_taken hmem)

theorem inserted_of_count {s : Text} (h : s.count '=' = 1) : inserted s = (key s, value s) := by
  have hmem : '=' ∈ s := List.count_pos_iff.mp (by omega)
  obtain ⟨k, r, rfl, hk⟩ := List.eq_append_cons_of_mem hmem
  rw [List.count_append, List.count_eq_zero.mpr hk, List.count_cons_self] at h
  have hr : '=' ∉ r := List.count_eq_zero.mp (by omega)
  rw [inserted, value_append hk, takeWhile_of_not_mem hr]

/-! ## A query -/

theorem pairs_accepted_iff (ss : List Text) :
    (Found.pairs ss).1 = true ↔ ∀ s ∈ ss, Taken s := by
  induction ss with
  | nil => simp [Found.pairs]
  | cons s ss ih =>
    rw [Found.pairs, List.forall_mem_cons]
    cases hp : Found.pair? s with
    | some p => simpa [(pair?_eq_some_iff.mp hp).1] using ih
    | none =>
      have hs : ¬ Taken s := fun h => by
        rw [pair?_eq_some_iff.mpr ⟨h, rfl⟩] at hp
        cases hp
      simp [hs]

theorem pairs_inserted {ss : List Text} (h : ∀ s ∈ ss, Taken s) :
    (Found.pairs ss).2 = ss.map inserted := by
  induction ss with
  | nil => rfl
  | cons s ss ih =>
    obtain ⟨hs, hss⟩ := List.forall_mem_cons.mp h
    rw [Found.pairs, pair?_eq_some_iff.mpr ⟨hs, rfl⟩]
    exact congrArg _ (ih hss)

/-- The query that the parser sees. -/
def seen (url : Text) : Text := (Found.queryPart url).1.getD []

theorem accepted_iff (u : Uri) (url : Text) :
    (u.parseFromArray url).1 = true ↔ ∀ s ∈ segments (seen url), Taken s := by
  rw [parse_eq, segments, ← split_eq, ← pairs_accepted_iff]
  rfl

theorem params_get? {m : UInt16} {url : Text} (h : ∀ s ∈ segments (seen url), Taken s) (k : Text) :
    ((Uri.new m).parseFromArray url).2.params.get? k =
      ((segments (seen url)).map inserted).lookup k := by
  have hparams : ((Uri.new m).parseFromArray url).2.params =
      ((segments (seen url)).map inserted).foldl (fun m p => m.insert p.1 p.2) .empty := by
    rw [parse_eq, ← pairs_inserted h, segments, ← split_eq]
    rfl
  rw [hparams, get?_foldl_insert, OrdMap.get?_empty, Option.none_or]

/-- `k=v` in each segment, or both a segment that the grammar refuses and one that the parser
does. -/
def Undisputed (q : Text) : Prop :=
  (∀ s ∈ segments q, s.count '=' = 1 ∧ s.getLast? ≠ some '=') ∨
    (∃ s ∈ segments q, s.count '=' ≠ 1) ∧ ∃ s ∈ segments q, ¬ Taken s

/-- The query that the parser sees gives what it asks for, or it does not. -/
theorem asked_seen_iff (m : UInt16) (url : Text) :
    Asked (seen url) ((Uri.new m).parseFromArray url).1
      ((Uri.new m).parseFromArray url).2.params ↔ Undisputed (seen url) := by
  rw [Asked, accepted_iff]
  constructor
  · rintro ⟨hret, -⟩
    by_cases h : ∀ s ∈ segments (seen url), Taken s
    · refine Or.inl fun s hs => ⟨hret.mp h s hs, ?_⟩
      rcases h s hs with hone | htwo
      · exact hone.2
      · have hone := hret.mp h s hs
        omega
    · have hcount : ¬ ∀ s ∈ segments (seen url), s.count '=' = 1 := fun hc => h (hret.mpr hc)
      refine Or.inr ⟨?_, ?_⟩
      · simpa using hcount
      · simpa using h
  · rintro (h | ⟨hcount, htaken⟩)
    · have htaken : ∀ s ∈ segments (seen url), Taken s := fun s hs => Or.inl (h s hs)
      refine ⟨iff_of_true htaken fun s hs => (h s hs).1, fun _ k => ?_⟩
      rw [params_get? htaken, List.map_congr_left fun s hs => inserted_of_count (h s hs).1]
    · have hnot : ¬ ∀ s ∈ segments (seen url), Taken s := by simpa using htaken
      refine ⟨iff_of_false hnot ?_, fun h => absurd h hnot⟩
      simpa using hcount

/-! ## A URL -/

/-- What follows the authority. -/
def pathAndQuery (path q : Text) : Text := '/' :: (path ++ '?' :: q)

theorem behind_authority {a : Authority} {r : Text} (hr : Tail r)
    (hclean : Clean a.endsInColon r) : behind (a.text ++ r) = r := by
  have htext : a.text ++ r = between [] [':', '/', '/'] a.schema ++
      (between [] ['@'] a.userInfo ++ (a.address ++ r)) := by
    simp only [Authority.text, List.append_assoc]
  have hparts := parseAuthority_parts (u := Uri.new 0)
    (fun t ht => (a.schema_plain t ht).unmarked) (fun t ht => (a.userInfo_plain t ht).unmarked)
    (fun c hc => (a.address_plain c hc).1) hr (a.address_plain.unmarked_append hclean)
  rw [← htext, Uri.parseAuthority, Uri.scanHead_eq] at hparts
  exact (Prod.mk.inj hparts).2

theorem seen_of_clean {a : Authority} {path q : Text} (hpath : ∀ c ∈ path, c ≠ '?' ∧ c ≠ '#')
    (hq : '#' ∉ q) (hclean : Clean a.endsInColon (pathAndQuery path q)) :
    seen (a.text ++ pathAndQuery path q) = q := by
  have hbehind := behind_authority (a := a) (r := pathAndQuery path q)
    (fun c hc => by cases hc; decide) hclean
  obtain ⟨-, hdrop⟩ := span_append (f := fun c => c != '?' && c != '#') (t := path) (r := '?' :: q)
    (fun c hc => by simpa using hpath c hc) (fun c hc => by cases hc; decide)
  have hall : q.takeWhile (· != '#') = q := by
    rw [List.takeWhile_eq_self_iff]
    intro c hc
    rw [bne_iff_ne]
    rintro rfl
    exact hq hc
  rw [seen, Found.queryPart, Found.pathPart, hbehind, pathAndQuery, Found.part]
  simp only
  rw [hdrop, Found.part, hall]
  rfl

/-- **The queries that are parsed as asked**, where there is no mark behind the authority: those in
which no segment ends in its `=`, and those that are refused for a segment of another kind. -/
theorem asked_iff (m : UInt16) (a : Authority) {path q : Text}
    (hpath : ∀ c ∈ path, c ≠ '?' ∧ c ≠ '#') (hq : '#' ∉ q)
    (hclean : Clean a.endsInColon (pathAndQuery path q)) :
    Asked q ((Uri.new m).parseFromArray (a.text ++ pathAndQuery path q)).1
        ((Uri.new m).parseFromArray (a.text ++ pathAndQuery path q)).2.params ↔
      Undisputed q := by
  have hiff := asked_seen_iff m (a.text ++ pathAndQuery path q)
  rwa [seen_of_clean hpath hq hclean] at hiff

def twoPairs : Text := ['k', '=', 'v', '&', 'l', '=', 'w']

/-- `h/p?k=v&l=w` -/
def pairsUrl : Text := Authority.bare.text ++ pathAndQuery ['p'] twoPairs

theorem asked_pairs : Asked twoPairs ((Uri.new 0).parseFromArray pairsUrl).1
    ((Uri.new 0).parseFromArray pairsUrl).2.params := by
  have hpath : ∀ c ∈ ['p'], c ≠ '?' ∧ c ≠ '#' := fun c hc => by
    rw [List.mem_singleton.mp hc]
    exact ⟨by decide, by decide⟩
  have hclean : Clean Authority.bare.endsInColon (pathAndQuery ['p'] twoPairs) :=
    ⟨by decide, by decide⟩
  have hsegments : ∀ s ∈ segments twoPairs, s.count '=' = 1 ∧ s.getLast? ≠ some '=' := by decide
  exact (asked_iff 0 .bare hpath (by decide) hclean).mpr (Or.inl hsegments)

/-- `k=` asks for an empty value. -/
theorem not_asked : ¬ Asked ['k', '='] ((Uri.new 0).parseFromArray "h/p?k=".toList).1
    ((Uri.new 0).parseFromArray "h/p?k=".toList).2.params := by
  intro h
  have hret := h.1.mpr (by decide)
  exact absurd hret (by decide)

end Wish.Http
