import Mathlib.Control.Monad.Basic
import Mathlib.Order.Basic

/-!
# Imperative programs that may fault

A program over the states `σ` is a `Prog ε σ α`: it returns a value and a state or stops with
a fault of `ε`. `Returns x s Q` is total correctness: from `s` the program returns, and what
it returns satisfies `Q`. There is one rule for each way to build a program; `loop` is a
`while` loop with fuel, and `Returns.loop` shows that it returns when an invariant indexed by
a number goes down.

`Ensures` is partial correctness, with the same rules.

With more fuel a program does what it did with less (`Below`), so `Converges` says what it does
without speaking of an amount, and `converges_iff` gets it from `Returns` at any amount that is
enough. `Upto` is sharper: with less fuel there is no fault that there is not with more, except
for the fuel's own. `Runs` is for a program of which it is not known whether it returns: it says
what it returns and when there is enough fuel.
-/

/-- Programs over the states `σ` with faults `ε`. -/
abbrev Prog (ε σ α : Type) := StateT σ (Except ε) α

namespace Prog

variable {ε σ α β γ : Type} {s : σ} {Q Q' : α → σ → Prop}

theorem bind_of_ok {x : Prog ε σ β} {f : β → Prog ε σ α} {b : β} {s' : σ} (h : x s = .ok (b, s')) :
    (x >>= f) s = f b s' := by
  show (x s >>= fun p => f p.1 p.2) = _
  rw [h]
  rfl

theorem bind_of_error {x : Prog ε σ β} {f : β → Prog ε σ α} {e : ε} (h : x s = .error e) :
    (x >>= f) s = .error e := by
  show (x s >>= fun p => f p.1 p.2) = _
  rw [h]
  rfl

/-- The program returns, and `Q` holds then. -/
def Returns (x : Prog ε σ α) (s : σ) (Q : α → σ → Prop) : Prop :=
  ∃ a s', x s = .ok (a, s') ∧ Q a s'

theorem Returns.mono {x : Prog ε σ α} (h : Returns x s Q) (hQ : ∀ a s', Q a s' → Q' a s') :
    Returns x s Q' := by
  obtain ⟨a, s', hx, hq⟩ := h
  exact ⟨a, s', hx, hQ a s' hq⟩

theorem returns_congr {x y : Prog ε σ α} (h : x s = y s) : Returns x s Q ↔ Returns y s Q := by
  simp only [Returns, h]

@[simp] theorem returns_pure {a : α} : Returns (pure a : Prog ε σ α) s Q ↔ Q a s := by
  constructor
  · rintro ⟨_, _, hx, hq⟩
    cases hx
    exact hq
  · exact fun h => ⟨a, s, rfl, h⟩

@[simp] theorem returns_bind {x : Prog ε σ β} {f : β → Prog ε σ α} :
    Returns (x >>= f) s Q ↔ Returns x s fun b s' => Returns (f b) s' Q := by
  constructor
  · rintro ⟨a, s'', hx, hq⟩
    have hbind : (x s >>= fun p => f p.1 p.2) = .ok (a, s'') := hx
    cases hxs : x s with
    | error e =>
      rw [hxs] at hbind
      cases hbind
    | ok p =>
      rw [hxs] at hbind
      exact ⟨p.1, p.2, hxs, a, s'', hbind, hq⟩
  · rintro ⟨b, s', hx, c, s'', hf, hq⟩
    refine ⟨c, s'', ?_, hq⟩
    show (x s >>= fun p => f p.1 p.2) = _
    rw [hx]
    exact hf

@[simp] theorem returns_map {x : Prog ε σ β} {f : β → α} :
    Returns (f <$> x) s Q ↔ Returns x s fun b s' => Q (f b) s' := by
  rw [← bind_pure_comp, returns_bind]
  simp only [returns_pure]

@[simp] theorem returns_get {Q : σ → σ → Prop} :
    Returns (MonadState.get : Prog ε σ σ) s Q ↔ Q s s := by
  constructor
  · rintro ⟨_, _, hx, hq⟩
    cases hx
    exact hq
  · exact fun h => ⟨s, s, rfl, h⟩

@[simp] theorem returns_modify {Q : PUnit → σ → Prop} {f : σ → σ} :
    Returns (modify f : Prog ε σ PUnit) s Q ↔ Q ⟨⟩ (f s) := by
  constructor
  · rintro ⟨_, _, hx, hq⟩
    cases hx
    exact hq
  · exact fun h => ⟨⟨⟩, f s, rfl, h⟩

@[simp] theorem returns_throw {e : ε} : ¬ Returns (throw e : Prog ε σ α) s Q := by
  rintro ⟨_, _, hx, -⟩
  cases hx

theorem Returns.ite {c : Prop} [Decidable c] {x y : Prog ε σ α} (hc : c → Returns x s Q)
    (hn : ¬ c → Returns y s Q) : Returns (if c then x else y) s Q := by
  by_cases h : c
  · rw [if_pos h]
    exact hc h
  · rw [if_neg h]
    exact hn h

/-- `while`: the body goes round with `inl` and leaves with `inr`. -/
def loop (stuck : ε) (body : β → Prog ε σ (β ⊕ γ)) : Nat → β → Prog ε σ γ
  | 0, _ => throw stuck
  | fuel + 1, b => body b >>= fun
    | .inl b' => loop stuck body fuel b'
    | .inr c => pure c

/-- **Loop rule.** The invariant is indexed by a bound on the number of rounds left. -/
theorem Returns.loop {stuck : ε} {body : β → Prog ε σ (β ⊕ γ)} {Q : γ → σ → Prop}
    {I : Nat → β → σ → Prop}
    (hbody : ∀ n b s, I n b s → Returns (body b) s fun r s' =>
      match r with
      | .inl b' => ∃ m < n, I m b' s'
      | .inr c => Q c s')
    {n fuel : Nat} (hfuel : n < fuel) {b : β} {s : σ} (h : I n b s) :
    Returns (loop stuck body fuel b) s Q := by
  induction fuel generalizing n b s with
  | zero => omega
  | succ fuel ih =>
    refine returns_bind.mpr ((hbody n b s h).mono fun r s' hr => ?_)
    cases r with
    | inl b' =>
      obtain ⟨m, hm, hI⟩ := hr
      exact ih (by omega) hI
    | inr c => exact returns_pure.mpr hr

/-! ## Partial correctness -/

/-- `R` holds if the program returns. -/
def Ensures (x : Prog ε σ α) (s : σ) (R : α → σ → Prop) : Prop :=
  ∀ a s', x s = .ok (a, s') → R a s'

theorem Ensures.mono {x : Prog ε σ α} (h : Ensures x s Q) (hQ : ∀ a s', Q a s' → Q' a s') :
    Ensures x s Q' := fun a s' hx => hQ a s' (h a s' hx)

theorem Ensures.and {x : Prog ε σ α} (h : Ensures x s Q) (h' : Ensures x s Q') :
    Ensures x s fun a s' => Q a s' ∧ Q' a s' := fun a s' hx => ⟨h a s' hx, h' a s' hx⟩

/-- What is ensured holds where the program returns. -/
theorem Returns.ensures {x : Prog ε σ α} (h : Returns x s Q) (h' : Ensures x s Q') :
    ∃ a s', Q a s' ∧ Q' a s' :=
  let ⟨a, s', hx, hq⟩ := h
  ⟨a, s', hq, h' a s' hx⟩

/-- A program has one result. -/
theorem ensures_of_returns {x : Prog ε σ α}
    (h : Returns x s (fun _ _ => True) → Returns x s Q) : Ensures x s Q := by
  intro a s' hx
  obtain ⟨b, s'', hx', hq⟩ := h ⟨a, s', hx, trivial⟩
  cases hx.symm.trans hx'
  exact hq

theorem ensures_congr {x y : Prog ε σ α} (h : x s = y s) : Ensures x s Q ↔ Ensures y s Q := by
  simp only [Ensures, h]

@[simp] theorem ensures_pure {a : α} : Ensures (pure a : Prog ε σ α) s Q ↔ Q a s := by
  refine ⟨fun h => h a s rfl, fun h b s' hx => ?_⟩
  cases hx
  exact h

@[simp] theorem ensures_throw {e : ε} : Ensures (throw e : Prog ε σ α) s Q := nofun

@[simp] theorem ensures_bind {x : Prog ε σ β} {f : β → Prog ε σ α} :
    Ensures (x >>= f) s Q ↔ Ensures x s fun b s' => Ensures (f b) s' Q := by
  constructor
  · intro h b s' hx a s'' hf
    refine h a s'' ?_
    show (x s >>= fun p => f p.1 p.2) = _
    rw [hx]
    exact hf
  · intro h a s'' hx
    have hbind : (x s >>= fun p => f p.1 p.2) = .ok (a, s'') := hx
    cases hxs : x s with
    | error e =>
      rw [hxs] at hbind
      cases hbind
    | ok p =>
      rw [hxs] at hbind
      exact h p.1 p.2 hxs a s'' hbind

@[simp] theorem ensures_map {x : Prog ε σ β} {f : β → α} :
    Ensures (f <$> x) s Q ↔ Ensures x s fun b s' => Q (f b) s' := by
  rw [← bind_pure_comp, ensures_bind]
  simp only [ensures_pure]

@[simp] theorem ensures_get {Q : σ → σ → Prop} :
    Ensures (MonadState.get : Prog ε σ σ) s Q ↔ Q s s := by
  refine ⟨fun h => h s s rfl, fun h b s' hx => ?_⟩
  cases hx
  exact h

@[simp] theorem ensures_modify {Q : PUnit → σ → Prop} {f : σ → σ} :
    Ensures (modify f : Prog ε σ PUnit) s Q ↔ Q ⟨⟩ (f s) := by
  refine ⟨fun h => h ⟨⟩ (f s) rfl, fun h b s' hx => ?_⟩
  cases hx
  exact h

/-- A program may be replaced by one that does the same in this state. -/
theorem bind_congr_at {x y : Prog ε σ β} {f g : β → Prog ε σ α} (h : x s = y s)
    (hfg : Ensures y s fun b s' => f b s' = g b s') : (x >>= f) s = (y >>= g) s := by
  show (x s >>= fun p => f p.1 p.2) = (y s >>= fun p => g p.1 p.2)
  rw [h]
  cases hy : y s with
  | error e => rfl
  | ok p => exact hfg p.1 p.2 hy

/-- A step of which the result is known. -/
theorem bind_eq_of_returns {x : Prog ε σ β} {f : β → Prog ε σ α} {b : β}
    (h : Returns x s fun b' s' => b' = b ∧ s' = s) : (x >>= f) s = f b s := by
  obtain ⟨b', s', hx, hb, hs⟩ := h
  rw [hb, hs] at hx
  rw [← pure_bind b f]
  exact bind_congr_at hx fun _ _ _ => rfl

/-- The loop rule, with nothing that goes down. -/
theorem Ensures.loop {stuck : ε} {body : β → Prog ε σ (β ⊕ γ)} {Q : γ → σ → Prop}
    {I : β → σ → Prop}
    (hbody : ∀ b s, I b s → Ensures (body b) s fun r s' =>
      match r with
      | .inl b' => I b' s'
      | .inr c => Q c s')
    {fuel : Nat} {b : β} {s : σ} (h : I b s) : Ensures (loop stuck body fuel b) s Q := by
  induction fuel generalizing b s with
  | zero => exact ensures_throw
  | succ fuel ih =>
    refine ensures_bind.mpr ((hbody b s h).mono fun r s' hr => ?_)
    cases r with
    | inl b' => exact ih hr
    | inr c => exact ensures_pure.mpr hr

/-- A loop that carries more goes round as the one that carries less. -/
theorem loop_map {β' γ' : Type} {stuck : ε} {body : β → Prog ε σ (β ⊕ γ)}
    {body' : β' → Prog ε σ (β' ⊕ γ')} {f : β' → β} {g : γ' → γ}
    (h : ∀ b, body (f b) = Sum.map f g <$> body' b) (fuel : Nat) (b : β') :
    loop stuck body fuel (f b) = g <$> loop stuck body' fuel b := by
  induction fuel generalizing b with
  | zero => rfl
  | succ fuel ih =>
    rw [loop, h, bind_map_left, loop, map_bind]
    refine congrArg (body' b >>= ·) (funext fun r => ?_)
    cases r with
    | inl b' => exact ih b'
    | inr c => exact (map_pure g c).symm

/-! ## Fuel -/

/-- Where `x` returns, `y` does the same. -/
def Below (x y : Prog ε σ α) : Prop := ∀ s r, x s = .ok r → y s = .ok r

theorem Below.refl (x : Prog ε σ α) : Below x x := fun _ _ h => h

theorem Below.bind {x y : Prog ε σ β} {f g : β → Prog ε σ α} (h : Below x y)
    (hfg : ∀ b, Below (f b) (g b)) : Below (x >>= f) (y >>= g) := by
  intro s r hr
  have hx : (x s >>= fun p => f p.1 p.2) = .ok r := hr
  show (y s >>= fun p => g p.1 p.2) = .ok r
  cases hxs : x s with
  | error e =>
    rw [hxs] at hx
    cases hx
  | ok p =>
    rw [hxs] at hx
    rw [h s p hxs]
    exact hfg p.1 p.2 r hx

/-- The same step first. -/
theorem Below.next {x : Prog ε σ β} {f g : β → Prog ε σ α} (h : ∀ b, Below (f b) (g b)) :
    Below (x >>= f) (x >>= g) := (Below.refl x).bind h

theorem Below.ite {c : Prop} [Decidable c] {x x' y y' : Prog ε σ α} (hx : Below x x')
    (hy : Below y y') : Below (if c then x else y) (if c then x' else y') := by
  by_cases h : c
  · rw [if_pos h, if_pos h]
    exact hx
  · rw [if_neg h, if_neg h]
    exact hy

theorem Below.throw (e : ε) (y : Prog ε σ α) : Below (throw e) y := fun _ _ h => nomatch h

theorem Below.loop_mono (stuck : ε) {body body' : β → Prog ε σ (β ⊕ γ)}
    (hbody : ∀ b, Below (body b) (body' b)) {n m : Nat} (h : n ≤ m) (b : β) :
    Below (loop stuck body n b) (loop stuck body' m b) := by
  induction n generalizing m b with
  | zero => exact .throw _ _
  | succ n ih =>
    obtain ⟨m, rfl⟩ : ∃ k, m = k + 1 := ⟨m - 1, by omega⟩
    refine (hbody b).bind fun r => ?_
    cases r with
    | inl b' => exact ih (by omega) b'
    | inr c => exact .refl _

theorem Below.loop (stuck : ε) (body : β → Prog ε σ (β ⊕ γ)) {n m : Nat} (h : n ≤ m) (b : β) :
    Below (loop stuck body n b) (loop stuck body m b) :=
  .loop_mono stuck (fun b => .refl (body b)) h b

theorem Below.returns {x y : Prog ε σ α} (h : Below x y) (hx : Returns x s Q) : Returns y s Q := by
  obtain ⟨a, s', hxs, hq⟩ := hx
  exact ⟨a, s', h s _ hxs, hq⟩

/-- `y` does the same as `x`, unless `x` stops with `stuck`. -/
def Upto (stuck : ε) (x y : Prog ε σ α) : Prop := ∀ s, x s = .error stuck ∨ y s = x s

section upto

variable {stuck : ε}

theorem Upto.refl (x : Prog ε σ α) : Upto stuck x x := fun _ => .inr rfl

theorem Upto.bind {x y : Prog ε σ β} {f g : β → Prog ε σ α} (h : Upto stuck x y)
    (hfg : ∀ b, Upto stuck (f b) (g b)) : Upto stuck (x >>= f) (y >>= g) := by
  intro s
  show (x s >>= fun p => f p.1 p.2) = _ ∨ (y s >>= fun p => g p.1 p.2) = (x s >>= _)
  rcases h s with hx | hy
  · rw [hx]
    exact .inl rfl
  · rw [hy]
    cases x s with
    | error e => exact .inr rfl
    | ok p => exact hfg p.1 p.2

/-- The same step first. -/
theorem Upto.next {x : Prog ε σ β} {f g : β → Prog ε σ α} (h : ∀ b, Upto stuck (f b) (g b)) :
    Upto stuck (x >>= f) (x >>= g) := (Upto.refl x).bind h

theorem Upto.ite {c : Prop} [Decidable c] {x x' y y' : Prog ε σ α} (hx : Upto stuck x x')
    (hy : Upto stuck y y') : Upto stuck (if c then x else y) (if c then x' else y') := by
  by_cases h : c
  · rw [if_pos h, if_pos h]
    exact hx
  · rw [if_neg h, if_neg h]
    exact hy

theorem Upto.throw (y : Prog ε σ α) : Upto stuck (throw stuck) y := fun _ => .inl rfl

theorem Upto.loop (body : β → Prog ε σ (β ⊕ γ)) {n m : Nat} (h : n ≤ m) (b : β) :
    Upto stuck (loop stuck body n b) (loop stuck body m b) := by
  induction n generalizing m b with
  | zero => exact .throw _
  | succ n ih =>
    obtain ⟨m, rfl⟩ : ∃ k, m = k + 1 := ⟨m - 1, by omega⟩
    refine .next fun r => ?_
    cases r with
    | inl b' => exact ih (by omega) b'
    | inr c => exact .refl _

theorem Upto.below {x y : Prog ε σ α} (h : Upto stuck x y) : Below x y := by
  intro s r hx
  rcases h s with hs | hy
  · cases hx.symm.trans hs
  · rw [hy, hx]

/-- Where the program returns with enough fuel, it lacks fuel or returns with any amount. -/
theorem Upto.stuck_or_returns {x : Nat → Prog ε σ α}
    (hx : ∀ n m, n ≤ m → Upto stuck (x n) (x m)) {k : Nat}
    (h : ∀ n, k ≤ n → Returns (x n) s Q) (n : Nat) : x n s = .error stuck ∨ Returns (x n) s Q := by
  rcases hx n (max n k) (Nat.le_max_left n k) s with hs | hmax
  · exact .inl hs
  · exact .inr ((returns_congr hmax).mp (h _ (Nat.le_max_right n k)))

/-! ## Programs that may lack fuel -/

/-- The program returns with `Q`, or it stops for want of fuel, which it does not if `c`. -/
def Runs (stuck : ε) (c : Prop) (x : Prog ε σ α) (s : σ) (Q : α → σ → Prop) : Prop :=
  Returns x s Q ∨ x s = .error stuck ∧ ¬ c

variable {c d : Prop}

theorem Returns.runs {x : Prog ε σ α} (h : Returns x s Q) : Runs stuck c x s Q := .inl h

theorem Runs.mono {x : Prog ε σ α} (h : Runs stuck c x s Q) (hcd : d → c)
    (hQ : ∀ a s', Q a s' → Q' a s') : Runs stuck d x s Q' :=
  h.imp (fun hr => hr.mono hQ) fun ⟨hx, hc⟩ => ⟨hx, fun hd => hc (hcd hd)⟩

theorem Runs.bind {x : Prog ε σ β} {f : β → Prog ε σ α} {R : β → σ → Prop}
    (h : Runs stuck c x s R) (hf : ∀ b s', R b s' → Runs stuck c (f b) s' Q) :
    Runs stuck c (x >>= f) s Q := by
  rcases h with ⟨b, s', hx, hR⟩ | ⟨hx, hc⟩
  · rcases hf b s' hR with hr | ⟨he, hc⟩
    · exact .inl (returns_bind.mpr ⟨b, s', hx, hr⟩)
    · exact .inr ⟨(bind_of_ok hx).trans he, hc⟩
  · exact .inr ⟨bind_of_error hx, hc⟩

/-- What goes down need do so only under the condition. -/
theorem Runs.loop {body : β → Prog ε σ (β ⊕ γ)} {Q : γ → σ → Prop} {I : Nat → β → σ → Prop}
    (hbody : ∀ n b s, I n b s → Runs stuck c (body b) s fun r s' =>
      match r with
      | .inl b' => ∃ m, I m b' s' ∧ (c → m < n)
      | .inr a => Q a s')
    {n fuel : Nat} {b : β} {s : σ} (h : I n b s) :
    Runs stuck (c ∧ n < fuel) (loop stuck body fuel b) s Q := by
  induction fuel generalizing n b s with
  | zero => exact .inr ⟨rfl, fun ⟨_, hn⟩ => Nat.not_lt_zero n hn⟩
  | succ fuel ih =>
    refine ((hbody n b s h).mono And.left fun _ _ hr => hr).bind fun r s' hr => ?_
    cases r with
    | inl b' =>
      obtain ⟨m, hI, hm⟩ := hr
      exact (ih hI).mono (fun ⟨hc, hn⟩ => ⟨hc, by have := hm hc; omega⟩) fun _ _ hq => hq
    | inr a => exact .inl (returns_pure.mpr hr)

end upto

/-- With some fuel, the program returns `a` in the state `s'`. -/
def Converges (x : Nat → Prog ε σ α) (s : σ) (a : α) (s' : σ) : Prop :=
  ∃ fuel, x fuel s = .ok (a, s')

/-- What enough fuel gives is all that any fuel gives. -/
theorem converges_iff {x : Nat → Prog ε σ α} (hx : ∀ n m, n ≤ m → Below (x n) (x m)) {k : Nat}
    {a : α} {s' : σ} (hk : ∀ n, k ≤ n → ∃ p, x n s = .ok p) :
    Converges x s a s' ↔ x k s = .ok (a, s') := by
  constructor
  · rintro ⟨n, hn⟩
    obtain ⟨p, hp⟩ := hk k (Nat.le_refl k)
    have hmax := hx n (max n k) (Nat.le_max_left _ _) s _ hn
    rw [hx k (max n k) (Nat.le_max_right _ _) s _ hp] at hmax
    rw [hp, hmax]
  · exact fun h => ⟨k, h⟩

/-- A program that returns when there is enough fuel converges, and to one result. -/
theorem Returns.converges {x : Nat → Prog ε σ α} (hx : ∀ n m, n ≤ m → Below (x n) (x m))
    {k : Nat} (h : ∀ n, k ≤ n → Returns (x n) s Q) :
    ∃ a s', Q a s' ∧ ∀ b s'', Converges x s b s'' ↔ b = a ∧ s'' = s' := by
  have hk : ∀ n, k ≤ n → ∃ p, x n s = .ok p := fun n hn =>
    let ⟨a, s', hx, _⟩ := h n hn
    ⟨(a, s'), hx⟩
  obtain ⟨a, s', hxk, hq⟩ := h k (Nat.le_refl k)
  refine ⟨a, s', hq, fun b s'' => ?_⟩
  rw [converges_iff hx hk, hxk, Except.ok.injEq, Prod.mk.injEq]
  exact ⟨fun ⟨ha, hs⟩ => ⟨ha.symm, hs.symm⟩, fun ⟨hb, hs⟩ => ⟨hb.symm, hs.symm⟩⟩

theorem Converges.of_returns {x : Nat → Prog ε σ α} {a : α} {s' : σ} (hc : Converges x s a s')
    (hx : ∀ n m, n ≤ m → Below (x n) (x m)) {k : Nat} (h : ∀ n, k ≤ n → Returns (x n) s Q) :
    Q a s' := by
  obtain ⟨b, s'', hq, hiff⟩ := Returns.converges hx h
  obtain ⟨rfl, rfl⟩ := (hiff a s').mp hc
  exact hq

end Prog
