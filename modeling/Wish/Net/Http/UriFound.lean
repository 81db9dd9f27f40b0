import Wish.Net.Http.Uri
import Mathlib.Data.List.TakeWhile

/-!
# What a text gives to a `uri` object

`parse_from_array` assigns what it finds and leaves the other members as they were: `found` is
what there is to find in a text, and `parse_eq` that nothing else happens to the object.

* `reparsed_iff`: when an object that has been used parses as a new one does.
* `text_pieces`: the marked texts in front of the host, of which the last ones are the schema and
  the user info, the host, the port and `url()` are the whole text, and `url()` is its path, query
  and fragment.
-/

namespace Wish.Http

/-- What `parse_from_array` assigns. -/
structure Found where
  accepted : Bool
  schema : Option Text
  userInfo : Option Text
  host : Text
  port : UInt16
  path : Option Text
  query : Option Text
  /-- what is inserted into the map, in this order -/
  params : List (Text × Text)
  fragment : Option Text
  url : Option Text

namespace Found

/-- The last schema and the last user info, and what follows them. -/
def head (start : Text) : Text → Option Text × Option Text × Text
  | [] => (none, none, start)
  | ':' :: '/' :: '/' :: p =>
    let (schema, userInfo, rest) := head [] p
    (schema.or (some start), userInfo, rest)
  | '@' :: p =>
    let (schema, userInfo, rest) := head [] p
    (schema, userInfo.or (some start), rest)
  | c :: p => head (start ++ [c]) p

def hostPort (addr p : Text) : Text × UInt16 :=
  match Uri.splitPos addr with
  | none => (addr, 80)
  | some (host, port) => (host, atoi ((port ++ p).take (port.length + 1 + 1)))

/-- The part behind a delimiter, and what follows it. -/
def part (f : Char → Bool) : Text → Option Text × Text
  | [] => (none, [])
  | _ :: p => (some (p.takeWhile f), p.dropWhile f)

def pair? (ret : Text) : Option (Text × Text) :=
  match split ret '=' with
  | [k, v] => some (k, v)
  | _ => none

/-- The pairs in front of the first part that is not one. -/
def pairs : List Text → Bool × List (Text × Text)
  | [] => (true, [])
  | ret :: rets =>
    match pair? ret with
    | some p => ((pairs rets).1, p :: (pairs rets).2)
    | none => (false, [])

/-- The part behind the `#`. -/
def fragmentPart : Text → Option Text
  | [] => none
  | _ :: p => some p

end Found

def authority (url : Text) : Text :=
  (Found.head [] url).2.2.takeWhile fun c => !Uri.isDelimiter c

/-- The text behind the authority. -/
def behind (url : Text) : Text := (Found.head [] url).2.2.dropWhile fun c => !Uri.isDelimiter c

namespace Found

def pathPart (url : Text) : Option Text × Text := part (fun c => c != '?' && c != '#') (behind url)

def queryPart (url : Text) : Option Text × Text := part (· != '#') (pathPart url).2

def queryPairs (url : Text) : Bool × List (Text × Text) :=
  pairs (split ((queryPart url).1.getD []) '&')

end Found

open Found in
def found (url : Text) : Found where
  accepted := (queryPairs url).1
  schema := (head [] url).1
  userInfo := (head [] url).2.1
  host := (hostPort (authority url) (behind url)).1
  port := (hostPort (authority url) (behind url)).2
  path := (pathPart url).1
  query := (queryPart url).1
  params := (queryPairs url).2
  fragment := if (queryPairs url).1 then fragmentPart (queryPart url).2 else none
  url := if (queryPairs url).1 then some (behind url) else none

namespace Uri

/-- The members that have been found. -/
def assign (u : Uri) (f : Found) : Uri where
  mHost := f.host
  mPort := f.port
  mPath := f.path.getD u.mPath
  mUserInfo := f.userInfo.getD u.mUserInfo
  mSchema := f.schema.getD u.mSchema
  mFragment := f.fragment.getD u.mFragment
  mQuery := f.query.getD u.mQuery
  mQueryMap := f.params.foldl (fun m p => m.insert p.1 p.2) u.mQueryMap
  mUrl := f.url.getD u.mUrl

variable {u : Uri} {start p addr : Text}

theorem getD_or (o : Option Text) (s t : Text) : (o.or (some s)).getD t = o.getD s := by
  cases o <;> rfl

theorem scanHead_eq (u : Uri) (start p : Text) : u.scanHead start p =
    ({ u with
      mSchema := (Found.head start p).1.getD u.mSchema
      mUserInfo := (Found.head start p).2.1.getD u.mUserInfo }, (Found.head start p).2.2) := by
  fun_induction scanHead u start p with
  | case1 => rfl
  | case2 u start p ih =>
    rw [ih, Found.head]
    simp only [getD_or]
  | case3 u start p ih =>
    rw [ih, Found.head]
    simp only [getD_or]
  | case4 u start c p hslash hat ih =>
    rw [ih, Found.head]
    · exact hslash
    · exact hat

theorem setAddress_eq : u.setAddress addr p =
    { u with
      mHost := (Found.hostPort addr p).1
      mPort := (Found.hostPort addr p).2 } := by
  unfold setAddress Found.hostPort
  cases splitPos addr with
  | none => rfl
  | some r => rfl

theorem pair?_eq_some {ret : Text} {p : Text × Text} :
    Found.pair? ret = some p ↔ split ret '=' = [p.1, p.2] := by
  unfold Found.pair?
  split
  · next k v heq => simp [heq, Prod.ext_iff]
  · next hne => simpa using hne p.1 p.2

theorem insertParams_eq (m : OrdMap Text Text) (rets : List Text) : insertParams m rets =
    ((Found.pairs rets).1, (Found.pairs rets).2.foldl (fun m p => m.insert p.1 p.2) m) := by
  induction rets generalizing m with
  | nil => rfl
  | cons ret rets ih =>
    rw [insertParams, Found.pairs]
    cases hp : Found.pair? ret with
    | some p =>
      rw [pair?_eq_some.mp hp]
      exact ih (m.insert p.1 p.2)
    | none =>
      split
      · next k v heq => cases hp.symm.trans (pair?_eq_some (p := (k, v)).mpr heq)
      · rfl

/-! ## The third loop -/

theorem head?_dropWhile {f : Char → Bool} {p : Text} :
    ∀ c ∈ (p.dropWhile f).head?, f c = false := by
  intro c hc
  have hnot := List.head?_dropWhile_not f p
  rw [Option.mem_def.mp hc] at hnot
  simpa using hnot

theorem parseFragment_found (hp : ∀ c ∈ p.head?, c = '#') : u.parseFragment p =
    (true, { u with mFragment := (Found.fragmentPart p).getD u.mFragment }, []) := by
  cases p with
  | nil => rfl
  | cons c p =>
    obtain rfl := hp c rfl
    rfl

theorem parseQuery_found {b : Bool} {ps : List (Text × Text)}
    (hp : ∀ c ∈ p.head?, c = '?' ∨ c = '#')
    (hpairs : Found.pairs (split ((Found.part (· != '#') p).1.getD []) '&') = (b, ps)) :
    u.parseQuery p = (b,
      { u with
        mQuery := (Found.part (· != '#') p).1.getD u.mQuery
        mQueryMap := ps.foldl (fun m p => m.insert p.1 p.2) u.mQueryMap
        mFragment := (if b then Found.fragmentPart (Found.part (· != '#') p).2 else none).getD
          u.mFragment },
      if b then [] else (Found.part (· != '#') p).2) := by
  cases p with
  | nil =>
    cases hpairs
    rfl
  | cons c p =>
    have hdrop : ∀ c ∈ (p.dropWhile (· != '#')).head?, c = '#' := fun c hc => by
      simpa using head?_dropWhile c hc
    have hins := insertParams_eq u.mQueryMap (split (p.takeWhile (· != '#')) '&')
    simp only [Found.part, Option.getD_some] at hpairs ⊢
    rw [hpairs] at hins
    rw [parseQuery, if_pos (hp c rfl)]
    simp only
    split
    · next hnil =>
      rw [hnil] at hpairs
      cases hpairs
      rw [parseFragment_found hdrop]
      rfl
    · rw [hins]
      cases b with
      | true => exact parseFragment_found hdrop
      | false => rfl

theorem parsePath_found (hp : ∀ c ∈ p.head?, isDelimiter c) : u.parsePath p =
    { u with mPath := (Found.part (fun c => c != '?' && c != '#') p).1.getD u.mPath }.parseQuery
      (Found.part (fun c => c != '?' && c != '#') p).2 := by
  cases p with
  | nil => rfl
  | cons c p => rw [parsePath, if_pos (hp c rfl)]; rfl

end Uri

theorem behind_tail (url : Text) : Tail (behind url) := fun c hc => by
  simpa using Uri.head?_dropWhile c hc

/-- **What is found in the text** is assigned, and no more. -/
theorem parse_eq (u : Uri) (url : Text) :
    u.parseFromArray url = ((found url).accepted, u.assign (found url)) := by
  have hpath : ∀ c ∈ (Found.pathPart url).2.head?, c = '?' ∨ c = '#' := by
    unfold Found.pathPart Found.part
    cases behind url with
    | nil => nofun
    | cons d p =>
      intro c hc
      have hstop := Uri.head?_dropWhile c hc
      rw [Bool.and_eq_false_iff, bne_eq_false_iff_eq, bne_eq_false_iff_eq] at hstop
      exact hstop
  rw [Uri.parseFromArray, Uri.parseAuthority, Uri.scanHead_eq]
  simp only [Uri.setAddress_eq]
  rw [← behind, ← authority, Uri.parsePath_found (behind_tail url), ← Found.pathPart,
    Uri.parseQuery_found hpath rfl]
  unfold Uri.assign found Found.queryPairs Found.queryPart
  simp only
  cases (Found.pairs (split ((Found.part (· != '#') (Found.pathPart url).2).1.getD []) '&')).1 with
  | true => simp
  | false => rfl

/-! ## An object that has been used -/

/-- Where the text is accepted, a new object would be the same (each member has its accessor);
where it is rejected, the object is as it was. -/
def Reparsed (u : Uri) (url : Text) : Prop :=
  ((u.parseFromArray url).1 = true → ∀ mPort,
    (u.parseFromArray url).2 = ((Uri.new mPort).parseFromArray url).2) ∧
  ((u.parseFromArray url).1 = false → (u.parseFromArray url).2 = u)

/-- The object has nothing in a member that the text leaves alone. -/
structure Blank (u : Uri) (f : Found) : Prop where
  schema : f.schema = none → u.schema = []
  userInfo : f.userInfo = none → u.userInfo = []
  path : f.path = none → u.path = []
  query : f.query = none → u.query = []
  params : ∀ k v, u.params.get? k = some v → f.params.lookup k = some v
  fragment : f.fragment = none → u.fragment = []

/-- The object has already what the text assigns. -/
structure Same (u : Uri) (f : Found) : Prop where
  schema : ∀ t ∈ f.schema, u.schema = t
  userInfo : ∀ t ∈ f.userInfo, u.userInfo = t
  host : u.host = f.host
  port : u.port = f.port
  path : ∀ t ∈ f.path, u.path = t
  query : ∀ t ∈ f.query, u.query = t
  params : ∀ p ∈ f.params, u.params.get? p.1 ≠ none

theorem get?_foldl_insert (m : OrdMap Text Text) (ps : List (Text × Text)) (k : Text) :
    (ps.foldl (fun m p => m.insert p.1 p.2) m).get? k = (m.get? k).or (ps.lookup k) := by
  induction ps generalizing m with
  | nil => simp
  | cons p ps ih =>
    rw [List.foldl_cons, ih, List.lookup_cons]
    by_cases hk : k = p.1
    · subst hk
      rw [OrdMap.insert]
      cases hm : m.get? p.1 with
      | none => simp
      | some v => simp [hm]
    · have hbeq : (k == p.1) = false := beq_eq_false_iff_ne.mpr hk
      rw [OrdMap.get?_insert_of_ne hk, hbeq]

theorem foldl_insert_eq_iff (m : OrdMap Text Text) (ps : List (Text × Text)) :
    ps.foldl (fun m p => m.insert p.1 p.2) m = ps.foldl (fun m p => m.insert p.1 p.2) .empty ↔
      ∀ k v, m.get? k = some v → ps.lookup k = some v := by
  constructor
  · intro h k v hv
    have hk := congrArg (OrdMap.get? · k) h
    simp only [get?_foldl_insert, hv, OrdMap.get?_empty, Option.some_or, Option.none_or] at hk
    exact hk.symm
  · intro h
    refine OrdMap.ext_get? fun k => ?_
    rw [get?_foldl_insert, get?_foldl_insert, OrdMap.get?_empty, Option.none_or]
    cases hv : m.get? k with
    | none => rfl
    | some v => rw [Option.some_or, h k v hv]

theorem foldl_insert_eq_self_iff (m : OrdMap Text Text) (ps : List (Text × Text)) :
    ps.foldl (fun m p => m.insert p.1 p.2) m = m ↔ ∀ p ∈ ps, m.get? p.1 ≠ none := by
  constructor
  · intro h p hp hnone
    have hk := congrArg (OrdMap.get? · p.1) h
    simp only [get?_foldl_insert, hnone, Option.none_or] at hk
    exact absurd (List.lookup_eq_none_iff.mp hk p hp) (by simp)
  · intro h
    refine OrdMap.ext_get? fun k => ?_
    rw [get?_foldl_insert]
    cases hv : m.get? k with
    | some v => rfl
    | none =>
      rw [Option.none_or, List.lookup_eq_none_iff]
      intro p hp
      rw [bne_iff_ne]
      rintro rfl
      exact h p hp hv

theorem getD_eq_getD_iff {o : Option Text} {t : Text} :
    o.getD t = o.getD [] ↔ (o = none → t = []) := by
  cases o with
  | none => simp
  | some s => simp

theorem getD_eq_self_iff {o : Option Text} {t : Text} : o.getD t = t ↔ ∀ s ∈ o, t = s := by
  cases o with
  | none => simp
  | some s => simp [eq_comm]

theorem blank_iff {u : Uri} {f : Found} (hf : f.url.isSome) :
    (∀ mPort, u.assign f = (Uri.new mPort).assign f) ↔ Blank u f := by
  obtain ⟨url, hurl⟩ := Option.isSome_iff_exists.mp hf
  simp only [Uri.assign, Uri.new, Uri.mk.injEq, hurl, Option.getD_some, true_and, and_true,
    getD_eq_getD_iff, foldl_insert_eq_iff, forall_const]
  constructor
  · intro ⟨hpath, huser, hschema, hfragment, hquery, hparams⟩
    exact ⟨hschema, huser, hpath, hquery, hparams, hfragment⟩
  · intro h
    exact ⟨h.path, h.userInfo, h.schema, h.fragment, h.query, h.params⟩

theorem same_iff {u : Uri} {f : Found} (hf : f.url = none) (hfragment : f.fragment = none) :
    u.assign f = u ↔ Same u f := by
  rw [Uri.assign, hf, hfragment]
  cases u with
  | mk host port path userInfo schema fragment query params url =>
    simp only [Uri.mk.injEq, Option.getD_none, and_true, true_and, getD_eq_self_iff,
      foldl_insert_eq_self_iff]
    constructor
    · intro ⟨hhost, hport, hpath, huser, hschema, hquery, hparams⟩
      exact ⟨hschema, huser, hhost.symm, hport.symm, hpath, hquery, hparams⟩
    · intro h
      exact ⟨h.host.symm, h.port.symm, h.path, h.userInfo, h.schema, h.query, h.params⟩

/-- **A used object parses as a new one** exactly when the text assigns every member that is not
empty, and a text that is rejected leaves it alone exactly when it assigns nothing new. -/
theorem reparsed_iff (u : Uri) (url : Text) :
    Reparsed u url ↔
      if (found url).accepted then Blank u (found url) else Same u (found url) := by
  simp only [Reparsed, parse_eq]
  cases haccepted : (found url).accepted with
  | true =>
    have hurl : (found url).url.isSome := by
      rw [found] at haccepted ⊢
      simp only at haccepted ⊢
      rw [if_pos haccepted]
      rfl
    rw [if_pos rfl, ← blank_iff hurl]
    simp
  | false =>
    have hnone : (found url).url = none ∧ (found url).fragment = none := by
      rw [found] at haccepted ⊢
      simp only at haccepted ⊢
      rw [haccepted]
      exact ⟨rfl, rfl⟩
    rw [if_neg Bool.false_ne_true, ← same_iff hnone.1 hnone.2]
    simp

/-- The object has parsed `s://a@h/p?k=v#f` and then the host `g` alone; a new one, a query that
is not one. -/
theorem not_reparsed : (∃ u u' : Uri,
    (Uri.new 0).parseFromArray "s://a@h/p?k=v#f".toList = (true, u) ∧
      u.parseFromArray ['g'] = (true, u') ∧ u'.path = ['p'] ∧ u'.fragment = ['f'] ∧
      ¬ Reparsed u ['g']) ∧ ¬ Reparsed (Uri.new 0) "h/p?x".toList := by
  refine ⟨⟨_, _, rfl, rfl, by decide, by decide, fun h => ?_⟩, fun h => ?_⟩
  · exact absurd (congrArg Uri.path (h.1 rfl 0)) (by decide)
  · exact absurd (congrArg Uri.host (h.2 rfl)) (by decide)

/-! ## The text in pieces -/

/-- What may follow the query. -/
def FragmentText (fragment p : Text) : Prop := p = [] ∧ fragment = [] ∨ p = '#' :: fragment

/-- What may follow the path. -/
def QueryText (query fragment p : Text) : Prop :=
  p = [] ∧ query = [] ∧ fragment = [] ∨
    ∃ c q, (c = '?' ∨ c = '#') ∧ p = c :: (query ++ q) ∧ '#' ∉ query ∧ FragmentText fragment q

/-- What may follow the authority. -/
def UrlText (path query fragment p : Text) : Prop :=
  p = [] ∧ path = [] ∧ query = [] ∧ fragment = [] ∨
    ∃ c q, Uri.isDelimiter c ∧ p = c :: (path ++ q) ∧ '?' ∉ path ∧ '#' ∉ path ∧
      QueryText query fragment q

/-- The host and the port. -/
def Address (host : Text) (port : UInt16) (addr : Text) : Prop :=
  ':' ∉ host ∧ port = 80 ∧ addr = host ∨
    ∃ t, ':' ∉ t ∧ port = atoi t ∧ addr = host ++ ':' :: t

/-- What may stand in front of the host: texts that end in a mark. The schema is the one in front of
the last `"://"`, the user info the one in front of the last `'@'`. -/
inductive HeadText : Option Text → Option Text → Text → Prop
  | nil : HeadText none none []
  | schema {schema userInfo : Option Text} {pre t : Text} (head : HeadText schema userInfo pre)
      (unmarked : Unmarked t) : HeadText (some t) userInfo (pre ++ (t ++ [':', '/', '/']))
  | userInfo {schema userInfo : Option Text} {pre t : Text} (head : HeadText schema userInfo pre)
      (unmarked : Unmarked t) : HeadText schema (some t) (pre ++ (t ++ ['@']))

/-- A text that ends in a mark, or is empty. -/
def MarkEnd (pre : Text) : Prop :=
  pre = [] ∨ ['@'] <:+ pre ∨ [':', '/', '/'] <:+ pre

namespace HeadText

variable {schema userInfo : Option Text} {pre t : Text}

/-- One more in front, whose mark is the last of its kind if there is no other one. -/
theorem cons_schema (h : HeadText schema userInfo pre) (ht : Unmarked t) :
    HeadText (schema.or (some t)) userInfo (t ++ ':' :: '/' :: '/' :: pre) := by
  induction h with
  | nil =>
    have hone := HeadText.nil.schema ht
    rwa [List.nil_append] at hone
  | schema head unmarked ih => simpa using ih.schema unmarked
  | userInfo head unmarked ih => simpa using ih.userInfo unmarked

theorem cons_userInfo (h : HeadText schema userInfo pre) (ht : Unmarked t) :
    HeadText schema (userInfo.or (some t)) (t ++ '@' :: pre) := by
  induction h with
  | nil =>
    have hone := HeadText.nil.userInfo ht
    rwa [List.nil_append] at hone
  | schema head unmarked ih => simpa using ih.schema unmarked
  | userInfo head unmarked ih => simpa using ih.userInfo unmarked

theorem markEnd (h : HeadText schema userInfo pre) : MarkEnd pre := by
  cases h with
  | nil => exact Or.inl rfl
  | schema head unmarked =>
    rw [← List.append_assoc]
    exact Or.inr (Or.inr (List.suffix_append _ _))
  | userInfo head unmarked =>
    rw [← List.append_assoc]
    exact Or.inr (Or.inl (List.suffix_append _ _))

end HeadText

namespace Found

theorem head_suffix (start p : Text) : (head start p).2.2 <:+ start ++ p := by
  fun_induction head start p with
  | case1 start => simp
  | case2 start p schema userInfo rest heq ih =>
    rw [heq] at ih
    exact (ih.trans (List.suffix_append [':', '/', '/'] p)).trans (List.suffix_append start _)
  | case3 start p schema userInfo rest heq ih =>
    rw [heq] at ih
    exact (ih.trans (List.suffix_append ['@'] p)).trans (List.suffix_append start _)
  | case4 start c p hslash hat ih =>
    rw [← List.append_cons] at ih
    exact ih

/-- No mark begins in `start`, with `p` behind it. -/
structure Passed (start p : Text) : Prop where
  at_sign : '@' ∉ start
  slashes : ∀ a b, start ++ p = a ++ [':', '/', '/'] ++ b → start.length ≤ a.length

theorem Passed.nil (p : Text) : Passed [] p := ⟨List.not_mem_nil, fun _ _ _ => Nat.zero_le _⟩

theorem Passed.unmarked {start p : Text} (h : Passed start p) : Unmarked start := by
  refine ⟨h.at_sign, fun ⟨a, b, hab⟩ => ?_⟩
  have hle := h.slashes a (b ++ p) (by rw [← hab, List.append_assoc _ b p])
  rw [← hab, List.length_append, List.length_append, List.length_cons] at hle
  omega

theorem Passed.snoc {start p : Text} {c : Char} (h : Passed start (c :: p)) (hat : c ≠ '@')
    (hslash : ∀ q, c = ':' → p ≠ '/' :: '/' :: q) : Passed (start ++ [c]) p := by
  refine ⟨fun hmem => ?_, fun a b hab => ?_⟩
  · rcases List.mem_append.mp hmem with hmem | hmem
    · exact h.at_sign hmem
    · exact hat (List.mem_singleton.mp hmem).symm
  · rw [← List.append_cons] at hab
    have hle := h.slashes a b hab
    rw [List.length_append, List.length_singleton]
    by_contra hlt
    obtain ⟨rfl, hrest⟩ := List.append_inj (hab.trans (List.append_assoc a _ b)) (by omega)
    obtain ⟨hc, hp⟩ := List.cons.inj hrest
    exact hslash b hc hp

/-- The first loop takes the text apart at its marks. -/
theorem head_text {start p : Text} (h : Passed start p) :
    ∃ pre, start ++ p = pre ++ (head start p).2.2 ∧ HeadText (head start p).1 (head start p).2.1 pre ∧
      Unmarked (head start p).2.2 := by
  fun_induction head start p with
  | case1 start => exact ⟨[], List.append_nil start, .nil, h.unmarked⟩
  | case2 start p schema userInfo rest heq ih =>
    rw [heq] at ih
    obtain ⟨pre, hpre, hhead, hrest⟩ := ih (.nil p)
    rw [List.nil_append] at hpre
    exact ⟨_, by rw [hpre]; simp, hhead.cons_schema h.unmarked, hrest⟩
  | case3 start p schema userInfo rest heq ih =>
    rw [heq] at ih
    obtain ⟨pre, hpre, hhead, hrest⟩ := ih (.nil p)
    rw [List.nil_append] at hpre
    exact ⟨_, by rw [hpre]; simp, hhead.cons_userInfo h.unmarked, hrest⟩
  | case4 start c p hslash hat ih =>
    obtain ⟨pre, hpre, hrest⟩ := ih (h.snoc hat hslash)
    rw [← List.append_cons] at hpre
    exact ⟨pre, hpre, hrest⟩

theorem not_mem_of_splitPos_eq_none {t : Text} (h : Uri.splitPos t = none) : ':' ∉ t := by
  induction t with
  | nil => exact List.not_mem_nil
  | cons c t ih =>
    rw [Uri.splitPos] at h
    split at h
    · cases h
    · next hs =>
      split at h
      · cases h
      · next hc =>
        intro hmem
        rcases List.mem_cons.mp hmem with rfl | hmem
        · exact hc rfl
        · exact ih hs hmem

theorem splitPos_last {t host port : Text} (h : Uri.splitPos t = some (host, port)) :
    ':' ∉ port := by
  induction t generalizing host port with
  | nil => cases h
  | cons c t ih =>
    rw [Uri.splitPos] at h
    split at h
    · next hs =>
      cases h
      exact ih hs
    · next hs =>
      split at h
      · cases h
        exact not_mem_of_splitPos_eq_none hs
      · cases h

theorem hostPort_address (addr : Text) {p : Text} (hp : Tail p) :
    Address (hostPort addr p).1 (hostPort addr p).2 addr := by
  unfold hostPort
  cases h : Uri.splitPos addr with
  | none => exact Or.inl ⟨not_mem_of_splitPos_eq_none h, rfl, rfl⟩
  | some r =>
    refine Or.inr ⟨r.2, splitPos_last h, ?_, Uri.splitPos_eq h⟩
    simp only
    rw [List.take_append, atoi_append (hp.take _), List.take_of_length_le (by omega)]

theorem fragmentText {p : Text} (hp : ∀ c ∈ p.head?, c = '#') :
    FragmentText ((fragmentPart p).getD []) p := by
  cases p with
  | nil => exact Or.inl ⟨rfl, rfl⟩
  | cons c p =>
    obtain rfl := hp c rfl
    exact Or.inr rfl

theorem not_mem_takeWhile {f : Char → Bool} {p : Text} {c : Char} (hc : f c = false) :
    c ∉ p.takeWhile f := fun hmem => by
  have hall := List.mem_takeWhile_imp hmem
  rw [hall] at hc
  cases hc

theorem queryText {p : Text} (hp : ∀ c ∈ p.head?, c = '?' ∨ c = '#') :
    QueryText ((part (· != '#') p).1.getD []) ((fragmentPart (part (· != '#') p).2).getD []) p := by
  cases p with
  | nil => exact Or.inl ⟨rfl, rfl, rfl⟩
  | cons c p =>
    refine Or.inr ⟨c, p.dropWhile (· != '#'), hp c rfl, ?_, not_mem_takeWhile rfl, ?_⟩
    · exact congrArg _ List.takeWhile_append_dropWhile.symm
    · exact fragmentText fun c hc => by simpa using Uri.head?_dropWhile c hc

theorem urlText (text : Text) : UrlText ((pathPart text).1.getD []) ((queryPart text).1.getD [])
    ((fragmentPart (queryPart text).2).getD []) (behind text) := by
  have htail := behind_tail text
  unfold queryPart pathPart
  generalize behind text = p at htail
  cases p with
  | nil => exact Or.inl ⟨rfl, rfl, rfl, rfl⟩
  | cons c p =>
    refine Or.inr ⟨c, p.dropWhile fun c => c != '?' && c != '#', htail c rfl, ?_,
      not_mem_takeWhile rfl, not_mem_takeWhile rfl, ?_⟩
    · exact congrArg _ List.takeWhile_append_dropWhile.symm
    · refine queryText fun c hc => ?_
      have hstop := Uri.head?_dropWhile c hc
      rw [Bool.and_eq_false_iff, bne_eq_false_iff_eq, bne_eq_false_iff_eq] at hstop
      exact hstop

end Found

theorem authority_behind (url : Text) : authority url ++ behind url = (Found.head [] url).2.2 :=
  List.takeWhile_append_dropWhile

theorem authority_plain (url : Text) : ∀ c ∈ authority url, ¬ Uri.isDelimiter c := fun c hc => by
  simpa using List.mem_takeWhile_imp hc

/-- **The text in pieces**: what stands in front of the host ends in the last mark, with the schema
and the user info in front of the last ones of their kinds; the host and the port go up to the
first delimiter; and nothing behind that is lost, doubled or moved. -/
theorem text_pieces (mPort : UInt16) (text : Text) {u : Uri}
    (h : (Uri.new mPort).parseFromArray text = (true, u)) :
    (∃ schema userInfo pre addr, text = pre ++ (addr ++ u.url) ∧
      HeadText schema userInfo pre ∧ u.schema = schema.getD [] ∧ u.userInfo = userInfo.getD [] ∧
      Unmarked (addr ++ u.url) ∧ (∀ c ∈ addr, ¬ Uri.isDelimiter c) ∧
      Address u.host u.port addr) ∧
      UrlText u.path u.query u.fragment u.url := by
  rw [parse_eq, Prod.mk.injEq] at h
  obtain ⟨haccepted, rfl⟩ := h
  have hpairs : (Found.queryPairs text).1 = true := haccepted
  have hurl : ((Uri.new mPort).assign (found text)).url = behind text := by
    simp [Uri.url, Uri.assign, found, hpairs]
  have hfragment : ((Uri.new mPort).assign (found text)).fragment =
      (Found.fragmentPart (Found.queryPart text).2).getD [] := by
    simp [Uri.fragment, Uri.assign, found, hpairs, Uri.new]
  rw [hurl, hfragment]
  constructor
  · obtain ⟨pre, hpre, hhead, hrest⟩ := Found.head_text (.nil text)
    rw [← authority_behind] at hpre hrest
    exact ⟨_, _, pre, authority text, hpre, hhead, rfl, rfl, hrest, authority_plain text,
      Found.hostPort_address _ (behind_tail text)⟩
  · exact Found.urlText text

theorem text_pieces_all :
    (∃ schema userInfo pre addr, "s://a@h:1/p?k=v#f".toList = pre ++ (addr ++ "/p?k=v#f".toList) ∧
      HeadText schema userInfo pre ∧ ['s'] = schema.getD [] ∧ ['a'] = userInfo.getD [] ∧
      Unmarked (addr ++ "/p?k=v#f".toList) ∧ (∀ c ∈ addr, ¬ Uri.isDelimiter c) ∧
      Address ['h'] 1 addr) ∧
      UrlText ['p'] "k=v".toList ['f'] "/p?k=v#f".toList :=
  text_pieces 0 "s://a@h:1/p?k=v#f".toList rfl

/-! ## The text behind the last mark -/

theorem MarkEnd.reverse {pre : Text} (h : MarkEnd pre) : pre = [] ∨
    (∃ q, pre.reverse = '@' :: q) ∨ ∃ q, pre.reverse = '/' :: '/' :: ':' :: q := by
  rcases h with rfl | ⟨q, rfl⟩ | ⟨q, rfl⟩
  · exact Or.inl rfl
  · exact Or.inr (Or.inl ⟨q.reverse, by simp⟩)
  · exact Or.inr (Or.inr ⟨q.reverse, by simp⟩)

/-- A mark that ends a text and is not in what comes behind another one ends where that one does. -/
theorem MarkEnd.eq_nil {pre x r : Text} (hpre : MarkEnd pre) (hx : MarkEnd (pre ++ x))
    (hr : Unmarked (x ++ r)) : x = [] := by
  by_contra hne
  rcases hx.reverse with hnil | ⟨q, hq⟩ | ⟨q, hq⟩
  · exact hne (List.append_eq_nil_iff.mp hnil).2
  · rw [List.reverse_append] at hq
    cases hrev : x.reverse with
    | nil => exact hne (List.reverse_eq_nil_iff.mp hrev)
    | cons c y =>
      rw [hrev] at hq
      obtain ⟨rfl, -⟩ := List.cons.inj hq
      have hmem : '@' ∈ x.reverse := hrev ▸ List.mem_cons_self
      exact hr.1 (List.mem_append_left r (List.mem_reverse.mp hmem))
  · rw [List.reverse_append] at hq
    rcases hrev : x.reverse with _ | ⟨a, _ | ⟨b, _ | ⟨c, y⟩⟩⟩
    · exact hne (List.reverse_eq_nil_iff.mp hrev)
    · rw [hrev] at hq
      have hend := (List.cons.inj hq).2
      rcases hpre.reverse with rfl | ⟨q', hq'⟩ | ⟨q', hq'⟩
      · cases hend
      all_goals cases hq'.symm.trans hend
    · rw [hrev] at hq
      have hend := (List.cons.inj (List.cons.inj hq).2).2
      rcases hpre.reverse with rfl | ⟨q', hq'⟩ | ⟨q', hq'⟩
      · cases hend
      all_goals cases hq'.symm.trans hend
    · -- the three characters are the end of `x`
      rw [hrev] at hq
      obtain ⟨rfl, hq₁⟩ := List.cons.inj hq
      obtain ⟨rfl, hq₂⟩ := List.cons.inj hq₁
      obtain ⟨rfl, -⟩ := List.cons.inj hq₂
      have hx : x = y.reverse ++ [':', '/', '/'] := by
        rw [← List.reverse_reverse x, hrev]
        simp
      exact hr.2 ⟨y.reverse, r, by rw [hx]⟩

/-- What comes behind the last mark of a text. -/
theorem head_eq_of_markEnd {pre rest : Text} (hpre : MarkEnd pre) (hrest : Unmarked rest) :
    (Found.head [] (pre ++ rest)).2.2 = rest := by
  obtain ⟨pre', heq, hhead, hrest'⟩ := Found.head_text (.nil (pre ++ rest))
  rw [List.nil_append] at heq
  rcases List.append_eq_append_iff.mp heq with ⟨x, rfl, hx⟩ | ⟨x, rfl, hx⟩
  · have hnil := hpre.eq_nil hhead.markEnd (hx ▸ hrest)
    rw [hnil, List.nil_append] at hx
    exact hx.symm
  · have hnil := hhead.markEnd.eq_nil hpre (hx ▸ hrest')
    subst hnil
    exact hx

end Wish.Http
