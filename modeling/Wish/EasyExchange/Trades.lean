import Wish.EasyExchange.Account

/-!
# The orders of one thread

`easy_exchange/exchange.cpp` places one order after the other and takes `false` for a lack of
money or of shares. `buy_stock` compares the fund with the price only when its compare-exchange has
failed, and the wrong way round; `sell_stock` looks at the positions only when it finds the flag
set. Alone, both return `true` (`call_eq`).

`sound_iff_covered`: orders are refused where they have to be, exactly as long as none has to be.
-/

namespace Wish.EasyExchange

open Machine

namespace Order

/-- The volume, if the order is for this side and code. -/
def part (o : Order) (side : Side) (code : CodeKey) : ℕ :=
  if o.side = side ∧ o.code = code then o.volume.toNat else 0

theorem part_self (o : Order) : o.part o.side o.code = o.volume.toNat := if_pos ⟨rfl, rfl⟩

theorem part_of_ne {o : Order} {side : Side} {code : CodeKey} (h : o.side ≠ side) :
    o.part side code = 0 :=
  if_neg fun hand => h hand.1

end Order

/-- An order with a price that is not negative and a volume. -/
abbrev Legal := { o : Order // 0 ≤ o.price ∧ 0 < o.volume }

theorem Legal.balance_nonneg (o : Legal) : 0 ≤ o.val.balance :=
  mul_nonneg o.property.1 (Nat.cast_nonneg _)

/-- Where a call begins. -/
def CallPc.start (o : Order) : CallPc :=
  match o.side with
  | .buy => .load o
  | .sell => .spin o

namespace Account

/-- A step of the only thread. -/
def solo (s : Account × CallPc × List Order) (spurious : Bool) :
    Option (Account × CallPc × List Order) :=
  (s.1.next spurious s.2.1).map fun r => (r.1, r.2.1, s.2.2 ++ r.2.2)

/-- `buy_stock` or `sell_stock` from the call to its return, and what it returns. The list tells of
each step whether `compare_exchange_weak` fails there for no reason. -/
def call (a : Account) (o : Order) (spurious : List Bool) : Option (Account × Bool) :=
  match run solo (a, .start o, []) spurious with
  | some (a', .idle, filled) => some (a', !filled.isEmpty)
  | _ => none

/-- The account after the fund has been changed. -/
def settle (a : Account) (o : Order) : Account := { a with mFund := a.mFund + o.cash }

/-- The states a call goes through that begins in `a` and finds the flag clear. -/
inductive Stage (a : Account) (o : Order) : Account × CallPc × List Order → Prop
  | sell (side : o.side = .sell) : Stage a o (a, .spin o, [])
  | sold (side : o.side = .sell) : Stage a o ({ a with mOpFlag := true }, .clear o, [])
  | load : Stage a o (a, .load o, [])
  | exchange (old : ℚ) : Stage a o (a, .exchange o old, [])
  | buy (side : o.side = .buy) : Stage a o (a.settle o, .spin o, [])
  | bought (side : o.side = .buy) :
      Stage a o ({ a.settle o with mOpFlag := true }, .clear o, [])
  | done : Stage a o (a.settle o, .idle, [o])

variable {a a' : Account} {o : Order} {spurious : Bool} {s s' : Account × CallPc × List Order}

theorem stage_start (a : Account) (o : Order) : Stage a o (a, .start o, []) := by
  cases hside : o.side
  · simpa only [CallPc.start, hside] using Stage.load
  · simpa only [CallPc.start, hside] using Stage.sell hside

theorem Stage.solo (h : Stage a o s) (hflag : a.mOpFlag = false) (hbalance : 0 ≤ o.balance)
    (hs : solo s spurious = some s') : Stage a o s' := by
  have hclear : { a with mOpFlag := false } = a := by rw [← hflag]
  cases h with
  | sell side =>
    simp only [Account.solo, next, hflag, Bool.false_eq_true, if_false, Option.map_some] at hs
    cases hs
    exact .sold side
  | sold side =>
    simp only [Account.solo, next, side, Option.map_some] at hs
    cases hs
    rw [hclear]
    exact .load
  | load =>
    cases hs
    exact .exchange a.mFund
  | exchange old =>
    simp only [Account.solo, next] at hs
    split at hs
    · next hold =>
      obtain ⟨rfl, -⟩ := hold
      cases hside : o.side <;> rw [hside] at hs <;> cases hs
      · have hsettle : { a with mFund := a.mFund - o.balance } = a.settle o := by
          rw [settle, Order.cash, hside, sub_eq_add_neg]
        exact hsettle ▸ .buy hside
      · have hsettle : { a with mFund := a.mFund + o.balance } = a.settle o := by
          rw [settle, Order.cash, hside]
        exact hsettle ▸ .done
    · cases hside : o.side <;> rw [hside] at hs
      -- the fund is never less than what is left of it
      · have hnot : ¬ a.mFund < a.mFund - o.balance := by linarith
        simp only [if_neg hnot] at hs
        cases hs
        exact .exchange a.mFund
      · cases hs
        exact .exchange a.mFund
  | buy side =>
    simp only [Account.solo, next, settle, hflag, Bool.false_eq_true, if_false,
      Option.map_some] at hs
    cases hs
    exact .bought side
  | bought side =>
    simp only [Account.solo, next, side, settle, Option.map_some] at hs
    cases hs
    have hdone : { a.settle o with mOpFlag := false } = a.settle o := by
      rw [settle, ← hflag]
    exact hdone ▸ .done
  | done => cases hs

/-- **A call alone returns `true`**, changes the fund and leaves the positions. -/
theorem call_eq {r : Bool} {outcomes : List Bool} (hflag : a.mOpFlag = false)
    (hbalance : 0 ≤ o.balance) (h : a.call o outcomes = some (a', r)) :
    a' = a.settle o ∧ r = true := by
  unfold call at h
  split at h
  · next b filled hrun =>
    have hstage : Stage a o (b, .idle, filled) :=
      run_invariant (stage_start a o) (fun _ _ _ hi hs => hi.solo hflag hbalance hs) hrun
    cases h
    cases hstage
    exact ⟨rfl, rfl⟩
  · cases h

theorem run_exchange (hbalance : 0 ≤ o.balance) (n : ℕ) :
    run solo (a, .exchange o a.mFund, []) (.replicate n true) =
      some (a, .exchange o a.mFund, []) := by
  have hnot : ¬ a.mFund < a.mFund - o.balance := by linarith
  induction n with
  | zero => rfl
  | succ n ih =>
    have hstep : solo (a, .exchange o a.mFund, []) true = some (a, .exchange o a.mFund, []) := by
      cases hside : o.side <;> simp [Account.solo, next, hside, hnot]
    rw [List.replicate_succ, run_cons, hstep]
    exact ih

/-- The outcomes of a call whose `compare_exchange_weak` fails `n` times. -/
def outcomes (o : Order) (n : ℕ) : List Bool :=
  match o.side with
  | .buy => false :: (.replicate n true ++ [false, false, false])
  | .sell => false :: false :: false :: (.replicate n true ++ [false])

/-- A call returns once `compare_exchange_weak` does not fail. -/
theorem call_returns (hflag : a.mOpFlag = false) (hbalance : 0 ≤ o.balance) (n : ℕ) :
    a.call o (outcomes o n) = some (a.settle o, true) := by
  have hrun : run solo (a, .start o, []) (outcomes o n) = some (a.settle o, .idle, [o]) := by
    cases hside : o.side
    · simp only [CallPc.start, outcomes, hside]
      rw [run_cons]
      show run solo (a, .exchange o a.mFund, []) _ = _
      rw [run_append, run_exchange hbalance]
      simp [run_cons, solo, next, hside, hflag, settle, Order.cash, sub_eq_add_neg]
    · have hload : run solo (a, .spin o, []) [false, false, false] =
          some (a, .exchange o a.mFund, []) := by
        obtain ⟨flag, position, fund⟩ := a
        cases hflag
        simp [run_cons, solo, next, hside]
      simp only [CallPc.start, outcomes, hside]
      show run solo (a, .spin o, []) ([false, false, false] ++ (_ ++ [false])) = _
      rw [run_append, hload]
      show run solo (a, .exchange o a.mFund, []) (_ ++ [false]) = _
      rw [run_append, run_exchange hbalance]
      simp [run_cons, solo, next, hside, settle, Order.cash]
  simp only [call, hrun]
  rfl

end Account

/-- A call that has returned. -/
structure Trade where
  before : Account
  order : Order
  result : Bool
  after : Account

namespace Trade

/-- What the order takes is there. -/
def Affordable (t : Trade) : Prop :=
  match t.order.side with
  | .buy => t.order.balance ≤ t.before.mFund
  | .sell => t.order.volume ≤ t.before.position t.order.code

/-- An order is refused exactly if the fund or the position is too small, and then nothing has
changed. -/
structure Right (t : Trade) : Prop where
  buy : t.order.side = .buy → (t.result = false ↔ t.before.mFund < t.order.balance)
  sell : t.order.side = .sell →
    (t.result = false ↔ t.before.position t.order.code < t.order.volume)
  refused : t.result = false →
    t.after.mFund = t.before.mFund ∧ t.after.mPosition = t.before.mPosition

theorem right_iff {t : Trade} (h : t.result = true) : t.Right ↔ t.Affordable := by
  constructor
  · intro hright
    cases hside : t.order.side <;> simp only [Affordable, hside]
    · have hnot := (hright.buy hside).not.mp (by rw [h]; decide)
      exact not_lt.mp hnot
    · have hnot := (hright.sell hside).not.mp (by rw [h]; decide)
      exact UInt64.not_lt.mp hnot
  · intro hafford
    refine ⟨fun hside => ?_, fun hside => ?_, fun hfalse => ?_⟩
    · simp only [Affordable, hside] at hafford
      simp [h, hafford]
    · simp only [Affordable, hside] at hafford
      simp [h, hafford]
    · rw [h] at hfalse
      cases hfalse

end Trade

/-- An account, and the calls that have returned. -/
structure Trading where
  account : Account
  trades : List Trade

namespace Trading

def init (position : OrdMap CodeKey UInt64) (fund : ℚ) : Trading := ⟨⟨false, position, fund⟩, []⟩

def step (s : Trading) (x : Legal × List Bool) : Option Trading :=
  (s.account.call x.1 x.2).map fun r => ⟨r.1, s.trades ++ [⟨s.account, x.1, r.2, r.1⟩]⟩

/-- The volume of the orders of one side for a code, whatever became of them. -/
def placed (s : Trading) (side : Side) (code : CodeKey) : ℕ :=
  (s.trades.map fun t => t.order.part side code).sum

/-- The volume of those that were successful. -/
def traded (s : Trading) (side : Side) (code : CodeKey) : ℕ :=
  ((s.trades.filter fun t => t.result).map fun t => t.order.part side code).sum

/-- The shares of a code at the beginning. -/
def held (position : OrdMap CodeKey UInt64) (code : CodeKey) : ℕ :=
  ((position.get? code).getD 0).toNat

/-- The calls have returned what they should, the fund is not negative, and no more of a code has
been sold than was there. -/
structure Sound (position : OrdMap CodeKey UInt64) (s : Trading) : Prop where
  right : ∀ t ∈ s.trades, t.Right
  fund : 0 ≤ s.account.mFund
  sold : ∀ code, s.traded .sell code ≤ held position code + s.traded .buy code

/-- The fund covers the order; or the position does, and so do the shares the orders before it have
left. -/
def Covered (position : OrdMap CodeKey UInt64) (s : Trading) (x : Legal × List Bool) : Prop :=
  match x.1.val.side with
  | .buy => x.1.val.balance ≤ s.account.mFund
  | .sell => x.1.val.volume ≤ s.account.position x.1.val.code ∧
      s.placed .sell x.1.val.code + x.1.val.volume.toNat ≤
        held position x.1.val.code + s.placed .buy x.1.val.code

instance (p : OrdMap CodeKey UInt64) (s : Trading) (x : Legal × List Bool) :
    Decidable (Covered p s x) :=
  match h : x.1.val.side with
  | .buy => decidable_of_iff (x.1.val.balance ≤ s.account.mFund) (by simp [Covered, h])
  | .sell => decidable_of_iff (x.1.val.volume ≤ s.account.position x.1.val.code ∧
      s.placed .sell x.1.val.code + x.1.val.volume.toNat ≤
        held p x.1.val.code + s.placed .buy x.1.val.code) (by simp [Covered, h])

variable {p : OrdMap CodeKey UInt64} {f : ℚ} {s s' : Trading} {x : Legal × List Bool}

/-- Nothing has been refused, and the flag is clear. -/
structure Filled (s : Trading) : Prop where
  flag : s.account.mOpFlag = false
  result : ∀ t ∈ s.trades, t.result = true

theorem Filled.traded (h : s.Filled) (side : Side) (code : CodeKey) :
    s.traded side code = s.placed side code := by
  rw [Trading.traded, List.filter_eq_self.mpr h.result, placed]

/-- The state after a call. -/
def fill (s : Trading) (o : Order) : Trading :=
  ⟨s.account.settle o, s.trades ++ [⟨s.account, o, true, s.account.settle o⟩]⟩

theorem Filled.step (h : s.Filled) (hs : step s x = some s') : s' = s.fill x.1 := by
  obtain ⟨⟨a, r⟩, hcall, rfl⟩ := Option.map_eq_some_iff.mp hs
  obtain ⟨rfl, rfl⟩ := Account.call_eq h.flag x.1.balance_nonneg hcall
  rfl

theorem Filled.fill (h : s.Filled) (o : Order) : (s.fill o).Filled := by
  refine ⟨h.flag, fun t ht => ?_⟩
  rcases List.mem_append.mp ht with ht | ht
  · exact h.result t ht
  · rw [List.mem_singleton.mp ht]

theorem placed_fill (s : Trading) (o : Order) (side : Side) (code : CodeKey) :
    (s.fill o).placed side code = s.placed side code + o.part side code := by
  simp [placed, fill]

/-- A covered order is affordable, and after it no more has been given away than was there. -/
theorem covered_iff (hsold : ∀ code, s.placed .sell code ≤ held p code + s.placed .buy code)
    (r : Bool) (a : Account) :
    Covered p s x ↔ (⟨s.account, x.1, r, a⟩ : Trade).Affordable ∧
      ∀ code, (s.fill x.1).placed .sell code ≤ held p code + (s.fill x.1).placed .buy code := by
  cases hside : x.1.val.side
  · have hsell : ∀ code, x.1.val.part .sell code = 0 := fun code =>
      Order.part_of_ne (by rw [hside]; decide)
    simp only [Covered, Trade.Affordable, hside, placed_fill, hsell]
    refine ⟨fun hafford => ⟨hafford, fun code => ?_⟩, And.left⟩
    have hold := hsold code
    omega
  · have hbuy : ∀ code, x.1.val.part .buy code = 0 := fun code =>
      Order.part_of_ne (by rw [hside]; decide)
    have hpart : x.1.val.part .sell x.1.val.code = x.1.val.volume.toNat :=
      hside ▸ x.1.val.part_self
    simp only [Covered, Trade.Affordable, hside, placed_fill, hbuy, Nat.add_zero]
    refine and_congr_right fun _ => ⟨fun hleft code => ?_, fun hall => hpart ▸ hall _⟩
    by_cases hcode : x.1.val.code = code
    · subst hcode
      rw [hpart]
      exact hleft
    · have hnone : x.1.val.part .sell code = 0 := if_neg fun hand => hcode hand.2
      have hold := hsold code
      omega

theorem fund_fill {r : Bool} {a : Account} (hfund : 0 ≤ s.account.mFund)
    (hafford : (⟨s.account, x.1, r, a⟩ : Trade).Affordable) :
    0 ≤ (s.fill x.1).account.mFund := by
  have hbalance := x.1.balance_nonneg
  show 0 ≤ s.account.mFund + x.1.val.cash
  cases hside : x.1.val.side
  · simp only [Trade.Affordable, hside] at hafford
    simp only [Order.cash, hside]
    linarith
  · simp only [Order.cash, hside]
    linarith

/-- A call keeps things right exactly if the order is covered. -/
theorem Filled.sound_iff (h : s.Filled) (hsound : s.Sound p) :
    (s.fill x.1).Sound p ↔ Covered p s x := by
  have hfill := h.fill x.1
  have hlast : (⟨s.account, x.1, true, s.account.settle x.1⟩ : Trade).Right ↔ _ :=
    Trade.right_iff rfl
  have hsold : ∀ code, s.placed .sell code ≤ held p code + s.placed .buy code := by
    intro code
    rw [← h.traded, ← h.traded]
    exact hsound.sold code
  rw [covered_iff hsold true (s.account.settle x.1), ← hlast]
  constructor
  · intro hnext
    refine ⟨hnext.right _ (List.mem_append_right _ (List.mem_singleton_self _)), fun code => ?_⟩
    rw [← hfill.traded, ← hfill.traded]
    exact hnext.sold code
  · rintro ⟨hright, hleft⟩
    refine ⟨fun t ht => ?_, fund_fill hsound.fund (hlast.mp hright), fun code => ?_⟩
    · rcases List.mem_append.mp ht with ht | ht
      · exact hsound.right t ht
      · rw [List.mem_singleton.mp ht]
        exact hright
    · rw [hfill.traded, hfill.traded]
      exact hleft code

theorem filled_init : (init p f).Filled := ⟨rfl, nofun⟩

theorem sound_init (hf : 0 ≤ f) : (init p f).Sound p := ⟨nofun, hf, fun _ => Nat.zero_le _⟩

/-- **Orders are refused where they have to be**, all along a run, exactly if each order of the run
is covered. -/
theorem sound_iff_covered (p : OrdMap CodeKey UInt64) {f : ℚ} (hf : 0 ≤ f)
    {xs : List (Legal × List Bool)} (h : run step (init p f) xs = some s) :
    (∀ ys s', ys <+: xs → run step (init p f) ys = some s' → s'.Sound p) ↔
      Guarded step (Covered p) (init p f) xs s := by
  refine forall_prefix_iff_guarded (I := fun s => s.Filled ∧ s.Sound p)
    ⟨filled_init, sound_init hf⟩ (fun _ hi => hi.2) ?_ ?_ h
  · intro s x s' ⟨hfilled, hsound⟩ hcovered hs
    obtain rfl := hfilled.step hs
    exact ⟨hfilled.fill x.1, (hfilled.sound_iff hsound).mpr hcovered⟩
  · intro s x s' ⟨hfilled, hsound⟩ hnot hs
    obtain rfl := hfilled.step hs
    exact fun hnext => hnot ((hfilled.sound_iff hsound).mp hnext)

/-- Five shares are held, and there is money for the first purchase and not for both. -/
def fiveShares : OrdMap CodeKey UInt64 := .set .empty 1 5

def orders : List (Legal × List Bool) :=
  [⟨⟨.buy, 1, 2, 3⟩, by decide⟩, ⟨⟨.sell, 1, 1, 4⟩, by decide⟩, ⟨⟨.buy, 1, 4, 2⟩, by decide⟩].map
    fun o : Legal => (o, Account.outcomes o 1)

/-- Everything is paid and held, with one spurious failure in each call. -/
theorem sound_iff_covered_orders : ∃ s, run step (init fiveShares 10) orders = some s ∧
    (s.account.mFund, s.trades.length) = (0, 3) ∧
      ∀ ys s', ys <+: orders → run step (init fiveShares 10) ys = some s' → s'.Sound fiveShares := by
  obtain ⟨s, hs, hfund⟩ : ∃ s, Guarded step (Covered fiveShares) (init fiveShares 10) orders s ∧
      (s.account.mFund, s.trades.length) = (0, 3) := exists_guarded (by decide +kernel)
  exact ⟨s, hs.run_eq, hfund, (sound_iff_covered fiveShares (by decide) hs.run_eq).mpr hs⟩

/-- One share for one, without money. -/
def unpaid : Legal := ⟨⟨.buy, 1, 1, 1⟩, by norm_num [Order.price], by decide⟩

theorem run_unpaid (n : ℕ) :
    run step (init .empty 0) [(unpaid, Account.outcomes unpaid n)] =
      some ((init .empty 0).fill unpaid) := by
  rw [run_cons, step, Account.call_returns rfl unpaid.balance_nonneg]
  rfl

/-- The fund is 0, the share is bought, and the fund is negative. -/
theorem not_sound_unpaid :
    ∃ (xs : List (Legal × List Bool)) (s : Trading), run step (init .empty 0) xs = some s ∧
      (∀ t ∈ s.trades, t.result = true) ∧ s.account.mFund = -1 ∧ ¬ s.Sound .empty := by
  have hfund : ((init .empty 0).fill unpaid).account.mFund = -1 := by
    show (0 : ℚ) + -(1 * ((1 : ℕ) : ℚ)) = -1
    norm_num
  refine ⟨_, _, run_unpaid 0, (filled_init.fill unpaid).result, hfund, fun h => ?_⟩
  have hneg := h.fund
  rw [hfund] at hneg
  norm_num at hneg

end Trading

end Wish.EasyExchange
