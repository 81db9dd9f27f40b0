import Wish.Machine
import Wish.OrdMap
import Mathlib.Algebra.Order.Ring.Rat
import Mathlib.Order.Fin.Basic
import Mathlib.Tactic.Linarith

/-!
# The orders of an `Account`

`easy_exchange/asset_def.h`: threads call `buy_stock` and `sell_stock` of one account. The fund is
changed by a compare-exchange loop; the positions are changed in the body of the loop that takes
`m_op_flag`, which runs once each time `test_and_set` finds the flag set and not at all when it
finds the flag clear. Money is exact.

`fund_ledger`: between the calls the fund is what the successful orders make it.
`ledger_iff`: the positions are too, exactly when no order has a volume.
-/

namespace Wish.EasyExchange

open Machine

/-- A `uint32_t`. -/
abbrev CodeKey := Fin (2 ^ 32)

inductive Side where
  | buy
  | sell
  deriving DecidableEq, Repr

/-- A call of `buy_stock` or `sell_stock`. -/
structure Order where
  side : Side
  code : CodeKey
  price : ℚ
  volume : UInt64
  deriving DecidableEq

namespace Order

def balance (o : Order) : ℚ := o.price * o.volume.toNat

/-- What the order is to add to `m_fund`. -/
def cash (o : Order) : ℚ :=
  match o.side with
  | .buy => -o.balance
  | .sell => o.balance

/-- What the order is to add to the position of the code. -/
def amount (o : Order) (code : CodeKey) : ℤ :=
  if o.code = code then
    match o.side with
    | .buy => o.volume.toNat
    | .sell => -o.volume.toNat
  else 0

end Order

structure Account where
  mOpFlag : Bool
  mPosition : OrdMap CodeKey UInt64
  mFund : ℚ

/-- Where a thread is in its call. -/
inductive CallPc where
  | idle
  /-- `m_fund.load()` -/
  | load (o : Order)
  /-- `compare_exchange_weak`, and the test after it -/
  | exchange (o : Order) (old : ℚ)
  /-- `test_and_set` -/
  | spin (o : Order)
  /-- the body of the loop -/
  | update (o : Order)
  /-- `m_op_flag.clear()` before `return false` -/
  | refuse (o : Order)
  /-- `m_op_flag.clear()` behind the loop -/
  | clear (o : Order)
  deriving DecidableEq

namespace CallPc

def order? : CallPc → Option Order
  | .idle => none
  | .load o | .exchange o _ | .spin o | .update o | .refuse o | .clear o => some o

/-- What the call has added to the fund. -/
def paid : CallPc → ℚ
  | .spin o | .update o | .clear o =>
    match o.side with
    | .buy => o.cash
    | .sell => 0
  | .idle | .load _ | .exchange _ _ | .refuse _ => 0

end CallPc

namespace Account

/-- The position of a code, 0 if there is none. -/
def position (a : Account) (code : CodeKey) : UInt64 := (a.mPosition.get? code).getD 0

/-- The body of the loop of `buy_stock`. -/
def buy (a : Account) (o : Order) : Account :=
  match a.mPosition.get? o.code with
  | some position => { a with mPosition := a.mPosition.set o.code (position + o.volume) }
  | none => { a with mPosition := a.mPosition.insert o.code o.volume }

/-- The body of the loop of `sell_stock`; `none` is `return false`. -/
def sell (a : Account) (o : Order) : Option Account :=
  match a.mPosition.get? o.code with
  | some position =>
    if position > o.volume then
      some { a with mPosition := a.mPosition.set o.code (position - o.volume) }
    else if position = o.volume then some { a with mPosition := a.mPosition.erase o.code }
    else none
  | none => none

/-- One step of a thread, with the order that is successful by it; `compare_exchange_weak` may fail
on a fund that has not changed. -/
def next (a : Account) (spurious : Bool) : CallPc → Option (Account × CallPc × List Order)
  | .idle => none
  | .load o => some (a, .exchange o a.mFund, [])
  | .exchange o old =>
    if a.mFund = old ∧ spurious = false then
      match o.side with
      | .buy => some ({ a with mFund := old - o.balance }, .spin o, [])
      | .sell => some ({ a with mFund := old + o.balance }, .idle, [o])
    -- `old` is the fund now
    else match o.side with
      | .buy =>
        if a.mFund < a.mFund - o.balance then some (a, .idle, [])
        else some (a, .exchange o a.mFund, [])
      | .sell => some (a, .exchange o a.mFund, [])
  | .spin o =>
    if a.mOpFlag then some (a, .update o, []) else some ({ a with mOpFlag := true }, .clear o, [])
  | .update o =>
    match o.side with
    | .buy => some (a.buy o, .spin o, [])
    | .sell =>
      match a.sell o with
      | some a' => some (a', .spin o, [])
      | none => some (a, .refuse o, [])
  | .refuse _ => some ({ a with mOpFlag := false }, .idle, [])
  | .clear o =>
    match o.side with
    | .buy => some ({ a with mOpFlag := false }, .idle, [o])
    | .sell => some ({ a with mOpFlag := false }, .load o, [])

variable {a a' : Account} {o : Order} {spurious : Bool} {pc pc' : CallPc} {filled : List Order}

@[simp] theorem buy_mFund (a : Account) (o : Order) : (a.buy o).mFund = a.mFund := by
  unfold buy
  split <;> rfl

theorem sell_mFund (h : a.sell o = some a') : a'.mFund = a.mFund := by
  unfold sell at h
  split at h
  · split at h
    · cases h
      rfl
    · split at h <;> cases h
      rfl
  · cases h

theorem buy_position (h : o.volume = 0) (code : CodeKey) :
    (a.buy o).position code = a.position code := by
  unfold buy
  split
  · next v hv =>
    by_cases hc : code = o.code
    · simp [position, hc, hv, h]
    · simp [position, hc]
  · next hv =>
    by_cases hc : code = o.code
    · simp [position, hc, hv, h, OrdMap.get?_insert_self hv]
    · simp [position, OrdMap.get?_insert_of_ne hc]

theorem sell_position (h : o.volume = 0) (hs : a.sell o = some a') (code : CodeKey) :
    a'.position code = a.position code := by
  unfold sell at hs
  split at hs
  · next v hv =>
    by_cases hc : code = o.code
    · split at hs
      · cases hs
        simp [position, hc, hv, h]
      · split at hs
        · next heq =>
          cases hs
          simp [position, hc, hv, heq, h]
        · cases hs
    · split at hs
      · cases hs
        simp [position, hc]
      · split at hs <;> cases hs
        simp [position, hc]
  · cases hs

/-- What a step of a call does. -/
inductive Step (a : Account) : CallPc → Account → CallPc → List Order → Prop
  | still {pc pc' : CallPc} (flag : Bool) (order : pc' = .idle ∨ pc'.order? = pc.order?)
      (paid : pc'.paid = pc.paid) : Step a pc { a with mOpFlag := flag } pc' []
  | pay {o : Order} (side : o.side = .buy) :
      Step a (.exchange o a.mFund) { a with mFund := a.mFund + o.cash } (.spin o) []
  | earn {o : Order} (side : o.side = .sell) :
      Step a (.exchange o a.mFund) { a with mFund := a.mFund + o.cash } .idle [o]
  | buy {o : Order} : Step a (.update o) (a.buy o) (.spin o) []
  | sell {o : Order} {a' : Account} (sold : a.sell o = some a') :
      Step a (.update o) a' (.spin o) []
  | bought {o : Order} (side : o.side = .buy) :
      Step a (.clear o) { a with mOpFlag := false } .idle [o]

theorem step_of_next (h : a.next spurious pc = some (a', pc', filled)) :
    Step a pc a' pc' filled := by
  cases pc with
  | idle => cases h
  | load o =>
    cases h
    exact .still a.mOpFlag (Or.inr rfl) rfl
  | exchange o old =>
    rw [next] at h
    split at h
    · next hold =>
      obtain ⟨rfl, -⟩ := hold
      cases hside : o.side <;> rw [hside] at h <;> cases h
      · have hcash : a.mFund - o.balance = a.mFund + o.cash := by
          rw [Order.cash, hside, sub_eq_add_neg]
        exact hcash ▸ .pay hside
      · have hcash : o.balance = o.cash := by rw [Order.cash, hside]
        exact hcash ▸ .earn hside
    · cases hside : o.side <;> rw [hside] at h
      · simp only at h
        split at h <;> cases h
        · exact .still a.mOpFlag (Or.inl rfl) rfl
        · exact .still a.mOpFlag (Or.inr rfl) rfl
      · cases h
        exact .still a.mOpFlag (Or.inr rfl) rfl
  | spin o =>
    rw [next] at h
    split at h <;> cases h
    · exact .still a.mOpFlag (Or.inr rfl) rfl
    · exact .still true (Or.inr rfl) rfl
  | update o =>
    rw [next] at h
    cases hside : o.side <;> rw [hside] at h
    · cases h
      exact .buy
    · simp only at h
      split at h
      · next hsell =>
        cases h
        exact .sell hsell
      · cases h
        exact .still a.mOpFlag (Or.inr rfl) (by simp [CallPc.paid, hside])
  | refuse o =>
    cases h
    exact .still false (Or.inl rfl) rfl
  | clear o =>
    rw [next] at h
    cases hside : o.side <;> rw [hside] at h <;> cases h
    · exact .bought hside
    · exact .still false (Or.inr rfl) (by simp [CallPc.paid, hside])

/-- The steps of a call add up to its `cash` if it is successful, and else to nothing. -/
theorem Step.fund (h : Step a pc a' pc' filled) :
    a'.mFund + pc.paid = a.mFund + (pc'.paid + (filled.map Order.cash).sum) := by
  cases h with
  | still flag order paid => simp [paid]
  | pay side => simp [CallPc.paid, side]
  | earn side => simp [CallPc.paid]
  | buy => simp [CallPc.paid]
  | sell sold => simp [CallPc.paid, sell_mFund sold]
  | bought side => simp [CallPc.paid, side]

/-- A step goes on with the order of the call. -/
theorem Step.order (h : Step a pc a' pc' filled) :
    (∀ o, pc'.order? = some o → pc.order? = some o) ∧ ∀ o ∈ filled, pc.order? = some o := by
  cases h with
  | still flag order paid =>
    rcases order with rfl | order
    · exact ⟨nofun, nofun⟩
    · exact ⟨fun o ho => order ▸ ho, nofun⟩
  | pay | buy | sell => exact ⟨fun _ ho => ho, nofun⟩
  | earn | bought => exact ⟨nofun, fun o ho => by rw [List.mem_singleton.mp ho]; rfl⟩

/-- A step of a call without a volume changes no position. -/
theorem Step.position (h : Step a pc a' pc' filled)
    (hpc : ∀ o, pc.order? = some o → o.volume = 0) (code : CodeKey) :
    a'.position code = a.position code := by
  cases h with
  | still | pay | earn | bought => rfl
  | buy => exact buy_position (hpc _ rfl) code
  | sell sold => exact sell_position (hpc _ rfl) sold code

end Account

structure State (ι : Type) where
  account : Account
  pc : ι → CallPc
  /-- the orders whose calls have returned `true` -/
  filled : List Order

inductive Act (ι : Type) where
  | call (t : ι) (o : Order)
  | next (t : ι) (spurious : Bool)

namespace State

variable {ι : Type}

/-- No call is in progress, and the flag is clear. -/
def init (position : OrdMap CodeKey UInt64) (fund : ℚ) : State ι :=
  ⟨⟨false, position, fund⟩, fun _ => .idle, []⟩

def step [DecidableEq ι] (s : State ι) : Act ι → Option (State ι)
  | .call t o =>
    match s.pc t, o.side with
    | .idle, .buy => some { s with pc := Function.update s.pc t (.load o) }
    | .idle, .sell => some { s with pc := Function.update s.pc t (.spin o) }
    | _, _ => none
  | .next t spurious =>
    (s.account.next spurious (s.pc t)).map fun r =>
      ⟨r.1, Function.update s.pc t r.2.1, s.filled ++ r.2.2⟩

/-- No call is in progress. -/
def Quiet (s : State ι) : Prop := ∀ t, s.pc t = .idle

/-- The orders that are placed are among those of `K`. -/
def Places (K : Set Order) (_s : State ι) (a : Act ι) : Prop := ∀ t o, a = .call t o → o ∈ K

/-- Each successful order has been applied to the fund, -/
def FundLedger (fund : ℚ) (s : State ι) : Prop :=
  s.account.mFund = fund + (s.filled.map Order.cash).sum

/-- and to the position of its code. -/
def PositionLedger (position : OrdMap CodeKey UInt64) (s : State ι) : Prop :=
  ∀ code, ((s.account.position code).toNat : ℤ) =
    ((position.get? code).getD 0).toNat + (s.filled.map fun o => o.amount code).sum

def Ledger (position : OrdMap CodeKey UInt64) (fund : ℚ) (s : State ι) : Prop :=
  PositionLedger position s ∧ FundLedger fund s

/-! ## The fund -/

variable {s s' : State ι} {p : OrdMap CodeKey UInt64} {f : ℚ} {K : Set Order}

/-- The calls in progress are those of the threads `us`, and the fund is what they and the
successful orders have made it. -/
structure Funded (f : ℚ) (us : Finset ι) (s : State ι) : Prop where
  idle : ∀ u ∉ us, s.pc u = .idle
  fund : s.account.mFund = f + ((s.filled.map Order.cash).sum + ∑ u ∈ us, (s.pc u).paid)

theorem funded_init : Funded f ∅ (init p f : State ι) where
  idle _ _ := rfl
  fund := by simp [init]

variable [DecidableEq ι]

theorem Funded.insert {us : Finset ι} (h : Funded f us s) (t : ι) : Funded f (insert t us) s := by
  refine ⟨fun u hu => h.idle u fun hmem => hu (Finset.mem_insert_of_mem hmem), ?_⟩
  by_cases ht : t ∈ us
  · rw [Finset.insert_eq_of_mem ht]
    exact h.fund
  · rw [Finset.sum_insert ht, h.idle t ht, CallPc.paid, zero_add]
    exact h.fund

/-- The thread `t` takes a step. -/
theorem Funded.update {us : Finset ι} {t : ι} {a : Account} {pc : CallPc} {filled : List Order}
    (h : Funded f us s) (ht : t ∈ us)
    (hfund : a.mFund + (s.pc t).paid =
      s.account.mFund + (pc.paid + (filled.map Order.cash).sum)) :
    Funded f us ⟨a, Function.update s.pc t pc, s.filled ++ filled⟩ := by
  refine ⟨fun u hu => ?_, ?_⟩
  · have hut : u ≠ t := by
      rintro rfl
      exact hu ht
    exact (Function.update_of_ne hut pc s.pc).trans (h.idle u hu)
  · have hsum := sum_update ht s.pc pc CallPc.paid
    have hold := h.fund
    simp only [List.map_append, List.sum_append]
    linarith

theorem Funded.call {us : Finset ι} {t : ι} {pc : CallPc} (h : Funded f us s) (ht : t ∈ us)
    (hidle : s.pc t = .idle) (hpaid : pc.paid = 0) :
    Funded f us { s with pc := Function.update s.pc t pc } := by
  have hfund : s.account.mFund + (s.pc t).paid =
      s.account.mFund + (pc.paid + (([] : List Order).map Order.cash).sum) := by
    rw [hidle, hpaid, zero_add]
    rfl
  have hnext := h.update ht hfund
  rwa [List.append_nil] at hnext

theorem Funded.step {us : Finset ι} {a : Act ι} (h : Funded f us s) (hs : step s a = some s') :
    ∃ us', Funded f us' s' := by
  cases a with
  | call t o =>
    simp only [State.step] at hs
    split at hs
    · next hidle _ =>
      cases hs
      exact ⟨_, (h.insert t).call (Finset.mem_insert_self t us) hidle rfl⟩
    · next hidle hside =>
      cases hs
      refine ⟨_, (h.insert t).call (Finset.mem_insert_self t us) hidle ?_⟩
      rw [CallPc.paid, hside]
    · cases hs
  | next t spurious =>
    obtain ⟨⟨a, pc, filled⟩, hnext, rfl⟩ := Option.map_eq_some_iff.mp hs
    exact ⟨_, (h.insert t).update (Finset.mem_insert_self t us) (Account.step_of_next hnext).fund⟩

/-- **The fund is right** whenever no call is in progress. -/
theorem fund_ledger {as : List (Act ι)} (h : run step (init p f) as = some s) (hq : s.Quiet) :
    FundLedger f s := by
  have hfunded : ∃ us, Funded f us s :=
    run_invariant (I := fun s => ∃ us, Funded f us s) ⟨∅, funded_init⟩
      (fun _ _ _ ⟨_, hi⟩ hs => hi.step hs) h
  obtain ⟨us, hus⟩ := hfunded
  have hzero : ∑ u ∈ us, (s.pc u).paid = 0 :=
    Finset.sum_eq_zero fun u _ => by rw [hq u, CallPc.paid]
  rw [FundLedger, hus.fund, hzero, add_zero]

/-! ## Orders without a volume -/

/-- No order has a volume, and the positions are those at the beginning. -/
structure Untouched (p : OrdMap CodeKey UInt64) (s : State ι) : Prop where
  order : ∀ t o, (s.pc t).order? = some o → o.volume = 0
  filled : ∀ o ∈ s.filled, o.volume = 0
  position : ∀ code, s.account.position code = (p.get? code).getD 0

omit [DecidableEq ι] in
theorem untouched_init : Untouched p (init p f : State ι) := ⟨nofun, nofun, fun _ => rfl⟩

theorem Untouched.call {t : ι} {o : Order} {pc : CallPc} (h : Untouched p s) (ho : o.volume = 0)
    (hpc : pc.order? = some o) :
    Untouched p { s with pc := Function.update s.pc t pc } := by
  refine ⟨fun u o' hu => ?_, h.filled, h.position⟩
  by_cases hut : u = t
  · subst hut
    simp only [Function.update_self, hpc] at hu
    cases hu
    exact ho
  · simp only [Function.update_of_ne hut] at hu
    exact h.order u o' hu

theorem Untouched.step {a : Act ι} (h : Untouched p s) (hK : ∀ o ∈ K, o.volume = 0)
    (hc : Places K s a) (hs : step s a = some s') : Untouched p s' := by
  cases a with
  | call t o =>
    have ho := hK o (hc t o rfl)
    simp only [State.step] at hs
    split at hs <;> cases hs
    · exact h.call ho rfl
    · exact h.call ho rfl
  | next t spurious =>
    obtain ⟨⟨a, pc, filled⟩, hnext, rfl⟩ := Option.map_eq_some_iff.mp hs
    have hstep := Account.step_of_next hnext
    refine ⟨fun u o hu => ?_, fun o ho => ?_, fun code => ?_⟩
    · by_cases hut : u = t
      · subst hut
        simp only [Function.update_self] at hu
        exact h.order u o (hstep.order.1 o hu)
      · simp only [Function.update_of_ne hut] at hu
        exact h.order u o hu
    · rcases List.mem_append.mp ho with ho | ho
      · exact h.filled o ho
      · exact h.order t o (hstep.order.2 o ho)
    · exact (hstep.position (h.order t) code).trans (h.position code)

omit [DecidableEq ι] in
theorem Untouched.ledger (h : Untouched p s) : PositionLedger p s := by
  intro code
  have hsum : (s.filled.map fun o => o.amount code).sum = 0 := by
    refine List.sum_eq_zero fun z hz => ?_
    obtain ⟨o, ho, rfl⟩ := List.mem_map.mp hz
    have hvolume := h.filled o ho
    cases hside : o.side <;> simp [Order.amount, hside, hvolume]
  rw [hsum, add_zero, h.position code]

/-! ## An order alone -/

/-- A thread places one order while no other thread is there. -/
def alone (t : ι) (o : Order) : List (Act ι) := .call t o :: .replicate 4 (.next t false)

theorem run_alone (t : ι) (o : Order) :
    run step (init p f) (alone t o) = some ⟨⟨false, p, f + o.cash⟩, fun _ => .idle, [o]⟩ := by
  obtain ⟨side, code, price, volume⟩ := o
  cases side
  · simp [run, step, alone, init, Account.next, Order.cash, sub_eq_add_neg]
  · simp [run, step, alone, init, Account.next, Order.cash]

omit [DecidableEq ι] in
/-- The order is successful, and its code has the position it had before. -/
theorem not_ledger_alone {o : Order} (h : o.volume ≠ 0) :
    ¬ PositionLedger p (⟨⟨false, p, f⟩, fun _ => .idle, [o]⟩ : State ι) := by
  intro hledger
  have hcode := hledger o.code
  have hvolume : o.volume.toNat ≠ 0 := fun hz => h (UInt64.toNat_inj.mp hz)
  cases hside : o.side <;> simp [Account.position, Order.amount, hside, hvolume] at hcode

/-- **The ledger is right** in all runs in which the orders of `K` are placed, exactly when none of
these orders has a volume. -/
theorem ledger_iff [Inhabited ι] (p : OrdMap CodeKey UInt64) (f : ℚ) (K : Set Order) :
    (∀ (as : List (Act ι)) s, Guarded step (Places K) (init p f) as s → s.Quiet → Ledger p f s) ↔
      ∀ o ∈ K, o.volume = 0 := by
  constructor
  · intro hall o ho
    by_contra hvolume
    have hplaces : ∀ a ∈ alone (default : ι) o, ∀ s, Places K s a := by
      intro a ha s t o' he
      rcases List.mem_cons.mp ha with rfl | ha
      · cases he
        exact ho
      · cases he.symm.trans (List.eq_of_mem_replicate ha)
    have hrun := guarded_of_mem hplaces (run_alone (p := p) (f := f) default o)
    exact not_ledger_alone hvolume (hall _ _ hrun fun _ => rfl).1
  · intro hK as s hrun hq
    refine ⟨Untouched.ledger ?_, fund_ledger hrun.run_eq hq⟩
    exact guarded_invariant (I := Untouched p) untouched_init
      (fun _ _ _ hi hc hs => hi.step hK hc hs) hrun

/-- 100 shares are bought at 10 and paid for, and the position stays at 0. -/
theorem not_ledger_buy :
    ∃ (as : List (Act Unit)) (s : State Unit), run step (init .empty 5000) as = some s ∧ s.Quiet ∧
      s.filled = [⟨.buy, 1, 10, 100⟩] ∧ s.account.mFund = 4000 ∧ s.account.position 1 = 0 ∧
      ¬ Ledger .empty 5000 s := by
  refine ⟨alone () ⟨.buy, 1, 10, 100⟩, _, run_alone () _, fun _ => rfl, rfl, ?_, rfl, fun h => ?_⟩
  · show (5000 : ℚ) + -(10 * ((100 : Nat) : ℚ)) = 4000
    norm_num
  · exact not_ledger_alone (by decide) h.1

end State

end Wish.EasyExchange
