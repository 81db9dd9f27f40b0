import Wish.Machine
import Mathlib.Algebra.GroupWithZero.Nat
import Mathlib.Algebra.Order.BigOperators.Group.List
import Mathlib.Algebra.Order.Group.Nat

/-!
# Sending on a `wish::session`

`net/transport/session.h`: `send_msg` wraps the pointer and the size that it is given in an
`asio::const_buffer`, which owns nothing, and dispatches `do_send_msg` on the strand, which starts
`asio::async_write(m_socket, sending_buf, asio::transfer_exactly(10), ...)`. The bytes are read
where the buffer points to when the socket is written, long after `send_msg` has returned.

Of asio the model has the documented behaviour: the handlers of the strand run one at a time
in the order of their dispatch; an `async_write` is a chain of `write_some` steps, each of
at most as many bytes as the completion condition allows, which ends when the condition is
met, when the buffer is at its end or with an error; the chains of several `async_write`s on
one socket may take their steps in any order.

`sent` is the list of the messages in the order of the calls, `wire` what the socket has
been given. `send_inOrder` says when `wire` follows `sent`, `lengths_le_of_whole` that the
bound on the lengths is also necessary.
-/

namespace Wish.Session

open Machine

/-- Bytes of the memory; `none` is read where there is no object (any more). -/
abbrev Bytes := List (Option UInt8)

abbrev Memory := Nat → Option UInt8

/-- `size` bytes from `data` on. -/
def Memory.read (m : Memory) (data : Nat) (size : Nat) : Bytes :=
  (List.range size).map fun k => m (data + k)

/-- `asio::transfer_exactly(n)`: how many bytes the next step may write. -/
def transferExactly (n total : Nat) : Nat := n - total

/-- The bound in `do_send_msg`. -/
def exactly : Nat := 10

/-- An `asio::const_buffer`: `data` and `size`. What was there when `send_msg` was called is
`said`; the program does not keep it. -/
structure ConstBuffer where
  data : Nat
  said : Bytes
  deriving Repr

def ConstBuffer.size (b : ConstBuffer) : Nat := b.said.length

/-- An `async_write` that has been started: its buffer, the bytes written so far, and what
its handler is called with (`none` while it is outstanding, `error` is `on_send_error`). -/
structure WriteOp where
  buf : ConstBuffer
  total : Nat
  result : Option (Except Unit Nat)
  deriving Repr

structure State where
  memory : Memory
  /-- handlers dispatched on `m_rw_strand` that have not run -/
  strand : List ConstBuffer
  ops : List WriteOp
  wire : Bytes
  sent : List Bytes

def init (memory : Memory) : State := ⟨memory, [], [], [], []⟩

inductive Act where
  | sendMsg (data : Nat) (size : Nat)
  /-- somebody stores into the memory, takes some of it for an object, or releases it -/
  | store (addr : Nat) (byte : Option UInt8)
  | strandRun
  | writeSome (i n : Nat)
  | fail (i : Nat)
  deriving Repr

def sendMsg (s : State) (data : Nat) (size : Nat) : State :=
  { s with
    strand := s.strand ++ [⟨data, s.memory.read data size⟩]
    sent := s.sent ++ [s.memory.read data size] }

def doSendMsg (s : State) (sendingBuf : ConstBuffer) : State :=
  { s with ops := s.ops ++ [⟨sendingBuf, 0, none⟩] }

/-- What the next `write_some` of an operation is offered. -/
def WriteOp.room (op : WriteOp) : Nat :=
  min (transferExactly exactly op.total) (op.buf.size - op.total)

/-- The operation after a `write_some` of `n` bytes. -/
def WriteOp.wrote (op : WriteOp) (n : Nat) : WriteOp :=
  let total := op.total + n
  let finished := transferExactly exactly total = 0 ∨ op.buf.size ≤ total
  { op with total := total, result := if finished then some (.ok total) else none }

def step (s : State) : Act → Option State
  | .sendMsg data size => some (sendMsg s data size)
  | .store addr byte => some { s with memory := Function.update s.memory addr byte }
  | .strandRun =>
    match s.strand with
    | [] => none
    | buf :: rest => some (doSendMsg { s with strand := rest } buf)
  | .writeSome i n =>
    match s.ops[i]? with
    | none => none
    | some op =>
      -- a step on a non-empty buffer writes at least one byte
      if op.result.isNone ∧ n ≤ op.room ∧ (0 < n ∨ op.room = 0) then
        some { s with
          ops := s.ops.set i (op.wrote n)
          wire := s.wire ++ s.memory.read (op.buf.data + op.total) n }
      else none
  | .fail i =>
    match s.ops[i]? with
    | none => none
    | some op =>
      if op.result.isNone then
        some { s with ops := s.ops.set i { op with result := some (.error ()) } }
      else none

/-- Every call has been turned into a write and every write has completed without error. -/
def Completed (s : State) : Prop :=
  s.strand = [] ∧ ∀ op ∈ s.ops, ∃ n, op.result = some (.ok n)

/-- What `send_msg` promises. -/
structure InOrder (s : State) : Prop where
  prefix_sent : s.wire <+: s.sent.flatten
  whole : Completed s → s.wire = s.sent.flatten

/-- The byte at `addr` belongs to a message and is still to be written. -/
def Unwritten (s : State) (addr : Nat) : Prop :=
  (∃ b ∈ s.strand, b.data ≤ addr ∧ addr < b.data + b.size) ∨
    ∃ op ∈ s.ops, op.result.isNone ∧ op.buf.data + op.total ≤ addr ∧
      addr < op.buf.data + op.buf.size

instance (s : State) (addr : Nat) : Decidable (Unwritten s addr) :=
  inferInstanceAs (Decidable (_ ∨ _))

/-- The step keeps to what `do_send_msg` can do: a message is not longer than the bound of
its completion condition, no message is written on while an earlier one is unfinished, and the
bytes of a message stay as they are until they have been written. -/
def Fits (s : State) : Act → Prop
  | .sendMsg _ size => size ≤ exactly
  | .store addr _ => ¬ Unwritten s addr
  | .writeSome i _ => ∀ op ∈ s.ops.take i, op.total = op.buf.size
  | .strandRun | .fail _ => True

instance (s : State) : (a : Act) → Decidable (Fits s a)
  | .sendMsg _ size => inferInstanceAs (Decidable (size ≤ exactly))
  | .store addr _ => inferInstanceAs (Decidable (¬ Unwritten s addr))
  | .writeSome i _ => inferInstanceAs (Decidable (∀ op ∈ s.ops.take i, op.total = op.buf.size))
  | .strandRun | .fail _ => inferInstanceAs (Decidable True)

/-! ## Memory -/

variable {m : Memory} {addr : Nat} {data n k : Nat}

@[simp] theorem length_read : (m.read data n).length = n := by simp [Memory.read]

theorem read_take (h : k ≤ n) : (m.read data n).take k = m.read data k := by
  rw [Memory.read, ← List.map_take, List.take_range, Nat.min_eq_left h]
  rfl

theorem read_drop : (m.read data n).drop k = m.read (data + k) (n - k) := by
  refine List.ext_getElem (by simp) fun i hi hi' => ?_
  simp [Memory.read, Nat.add_assoc]

/-- What is stored elsewhere is not read. -/
theorem read_update {byte : Option UInt8} (h : addr < data ∨ data + n ≤ addr) :
    Memory.read (Function.update m addr byte) data n = m.read data n := by
  refine List.map_congr_left fun k hk => ?_
  rw [List.mem_range] at hk
  exact Function.update_of_ne (by omega) _ _

/-- From the offset `k` on the buffer points to what was there at the call. -/
def ConstBuffer.Holds (b : ConstBuffer) (m : Memory) (k : Nat) : Prop :=
  m.read (b.data + k) (b.size - k) = b.said.drop k

theorem ConstBuffer.Holds.read {b : ConstBuffer} (h : b.Holds m k) (hn : n ≤ b.size - k) :
    m.read (b.data + k) n = (b.said.drop k).take n := by
  rw [← h, read_take hn]

theorem ConstBuffer.Holds.advance {b : ConstBuffer} (h : b.Holds m k) (n : Nat) :
    b.Holds m (k + n) := by
  have hdrop := congrArg (List.drop n) h
  rw [read_drop, List.drop_drop, Nat.add_assoc, Nat.sub_sub] at hdrop
  exact hdrop

theorem ConstBuffer.Holds.update {b : ConstBuffer} {byte : Option UInt8} (h : b.Holds m k)
    (haddr : ¬(b.data + k ≤ addr ∧ addr < b.data + b.size)) :
    b.Holds (Function.update m addr byte) k := by
  have hkeep : Memory.read (Function.update m addr byte) (b.data + k) (b.size - k) =
      m.read (b.data + k) (b.size - k) := by
    apply read_update
    omega
  exact hkeep.trans h

/-! ## Operations in a row -/

/-- The message of an operation. -/
def WriteOp.said (op : WriteOp) : Bytes := op.buf.said

/-- What an operation has put on the wire. -/
def WriteOp.written (op : WriteOp) : Bytes := op.buf.said.take op.total

@[simp] theorem wrote_buf (op : WriteOp) (n : Nat) : (op.wrote n).buf = op.buf := rfl

@[simp] theorem wrote_total (op : WriteOp) (n : Nat) : (op.wrote n).total = op.total + n := rfl

theorem ops_split {ops : List WriteOp} {i : Nat} {op : WriteOp} (h : ops[i]? = some op)
    (op' : WriteOp) :
    ops = ops.take i ++ op :: ops.drop (i + 1) ∧
      ops.set i op' = ops.take i ++ op' :: ops.drop (i + 1) := by
  obtain ⟨hi, rfl⟩ := List.getElem?_eq_some_iff.mp h
  exact ⟨by simp, by rw [List.set_eq_take_append_cons_drop, if_pos hi]⟩

/-- Each operation is written whole before the next one gets its first byte. -/
def OneByOne (ops : List WriteOp) : Prop :=
  ops.Pairwise fun a b => 0 < b.total → a.total = a.buf.size

theorem written_eq_nil {ops : List WriteOp} (h : ∀ op ∈ ops, op.total = 0) :
    (ops.map WriteOp.written).flatten = [] := by
  rw [List.flatten_eq_nil_iff]
  intro l hl
  obtain ⟨op, hop, rfl⟩ := List.mem_map.mp hl
  simp [WriteOp.written, h op hop]

theorem written_prefix {ops : List WriteOp} (h : OneByOne ops) :
    (ops.map WriteOp.written).flatten <+: (ops.map WriteOp.said).flatten := by
  induction ops with
  | nil => exact List.prefix_rfl
  | cons op ops ih =>
    obtain ⟨hhead, htail⟩ := List.pairwise_cons.mp h
    simp only [List.map_cons, List.flatten_cons]
    by_cases hfull : op.total = op.buf.size
    · rw [WriteOp.written, hfull, ConstBuffer.size, List.take_length]
      exact (List.prefix_append_right_inj _).mpr (ih htail)
    · -- nothing behind an unfinished operation has been written
      have hzero : ∀ b ∈ ops, b.total = 0 := fun b hb => by
        by_contra hne
        exact hfull (hhead b hb (Nat.pos_of_ne_zero hne))
      rw [written_eq_nil hzero, List.append_nil]
      exact (List.take_prefix _ _).trans (List.prefix_append _ _)

section Set

variable {ops : List WriteOp} {i : Nat} {op op' : WriteOp}

/-- An operation is replaced by one on the same message. -/
theorem map_said_set (hget : ops[i]? = some op) (hbuf : op'.buf = op.buf) :
    (ops.set i op').map WriteOp.said = ops.map WriteOp.said := by
  obtain ⟨hops, hset⟩ := ops_split hget op'
  rw [hset]
  conv_rhs => rw [hops]
  simp [WriteOp.said, hbuf]

theorem sum_total_set (hget : ops[i]? = some op) (htotal : op'.total = op.total + n) :
    ((ops.set i op').map WriteOp.total).sum = (ops.map WriteOp.total).sum + n := by
  obtain ⟨hops, hset⟩ := ops_split hget op'
  rw [hset]
  conv_rhs => rw [hops]
  simp only [List.map_append, List.map_cons, List.sum_append, List.sum_cons, htotal]
  omega

/-- What there is of an operation that has its first byte: all of those before it. -/
theorem OneByOne.before (h : OneByOne ops) (hget : ops[i]? = some op) (hpos : 0 < op.total) :
    ∀ a ∈ ops.take i, a.total = a.buf.size := by
  intro a ha
  unfold OneByOne at h
  rw [(ops_split hget op).1] at h
  exact (List.pairwise_append.mp h).2.2 a ha op List.mem_cons_self hpos

theorem OneByOne.behind (h : OneByOne ops) (hget : ops[i]? = some op) :
    ∀ b ∈ ops.drop (i + 1), 0 < b.total → op.total = op.buf.size := by
  unfold OneByOne at h
  rw [(ops_split hget op).1] at h
  exact (List.pairwise_cons.mp (List.pairwise_append.mp h).2.1).1

/-- An operation is replaced by one that fits between the others. -/
theorem OneByOne.set (h : OneByOne ops) (hget : ops[i]? = some op) (op' : WriteOp)
    (hbefore : 0 < op'.total → ∀ a ∈ ops.take i, a.total = a.buf.size)
    (hbehind : ∀ b ∈ ops.drop (i + 1), 0 < b.total → op'.total = op'.buf.size) :
    OneByOne (ops.set i op') := by
  obtain ⟨hops, hset⟩ := ops_split hget op'
  unfold OneByOne at h ⊢
  rw [hops] at h
  rw [hset]
  obtain ⟨hpre, hcons, hcross⟩ := List.pairwise_append.mp h
  refine List.pairwise_append.mpr
    ⟨hpre, List.pairwise_cons.mpr ⟨hbehind, (List.pairwise_cons.mp hcons).2⟩, ?_⟩
  intro a ha b hb hpos
  rcases List.mem_cons.mp hb with rfl | hb
  · exact hbefore hpos a ha
  · exact hcross a ha b (List.mem_cons_of_mem _ hb) hpos

end Set

/-! ## Every run -/

/-- Holds in every run: operations are started in the order of the calls, and each writes
at most the bytes its completion condition and its buffer allow, all of them if it succeeds. -/
structure Counted (s : State) : Prop where
  bufs : s.sent = s.ops.map WriteOp.said ++ s.strand.map ConstBuffer.said
  total_le : ∀ op ∈ s.ops, op.total ≤ min exactly op.buf.size
  ok : ∀ op ∈ s.ops, ∀ n, op.result = some (.ok n) → op.total = min exactly op.buf.size
  wire : s.wire.length = (s.ops.map WriteOp.total).sum

theorem counted_init (memory : Memory) : Counted (init memory) :=
  ⟨rfl, by simp [init], by simp [init], rfl⟩

theorem wrote_total_le {op : WriteOp} {n : Nat} (h : op.total ≤ min exactly op.buf.size)
    (hn : n ≤ op.room) : (op.wrote n).total ≤ min exactly op.buf.size := by
  simp only [WriteOp.room, transferExactly] at hn
  simp only [wrote_total]
  omega

theorem wrote_ok {op : WriteOp} {n k : Nat} (h : op.total ≤ min exactly op.buf.size)
    (hn : n ≤ op.room) (hk : (op.wrote n).result = some (.ok k)) :
    (op.wrote n).total = min exactly op.buf.size := by
  have hle := wrote_total_le h hn
  by_cases hend : transferExactly exactly (op.total + n) = 0 ∨ op.buf.size ≤ op.total + n
  · simp only [transferExactly] at hend
    simp only [wrote_total] at hle ⊢
    omega
  · simp [WriteOp.wrote, hend] at hk

theorem Counted.doSendMsg {s : State} {buf : ConstBuffer} {rest : List ConstBuffer}
    (h : Counted s) (hstrand : s.strand = buf :: rest) :
    Counted (Session.doSendMsg { s with strand := rest } buf) := by
  refine ⟨by simp [Session.doSendMsg, h.bufs, hstrand, WriteOp.said], fun op hop => ?_,
    fun op hop n hn => ?_, by simp [Session.doSendMsg, h.wire]⟩
  · rcases List.mem_append.mp hop with hop | hop
    · exact h.total_le op hop
    · rw [List.mem_singleton.mp hop]
      exact Nat.zero_le _
  · rcases List.mem_append.mp hop with hop | hop
    · exact h.ok op hop n hn
    · rw [List.mem_singleton.mp hop] at hn
      cases hn

/-- An operation goes on by the bytes `w`. -/
theorem Counted.set {s : State} {i : Nat} {op : WriteOp} (h : Counted s)
    (hget : s.ops[i]? = some op) (op' : WriteOp) (hbuf : op'.buf = op.buf) (w : Bytes)
    (htotal : op'.total = op.total + w.length) (hle : op'.total ≤ min exactly op'.buf.size)
    (hok : ∀ n, op'.result = some (.ok n) → op'.total = min exactly op'.buf.size) :
    Counted { s with ops := s.ops.set i op', wire := s.wire ++ w } where
  bufs := by
    rw [map_said_set hget hbuf]
    exact h.bufs
  total_le b hb := by
    rcases List.mem_or_eq_of_mem_set hb with hb | rfl
    · exact h.total_le b hb
    · exact hle
  ok b hb k hk := by
    rcases List.mem_or_eq_of_mem_set hb with hb | rfl
    · exact h.ok b hb k hk
    · exact hok k hk
  wire := by
    rw [List.length_append, h.wire, sum_total_set hget htotal]

theorem counted_step {s s' : State} {a : Act} (h : Counted s) (hs : step s a = some s') :
    Counted s' := by
  cases a with
  | sendMsg data size =>
    cases hs
    exact ⟨by simp [sendMsg, h.bufs], h.total_le, h.ok, h.wire⟩
  | store addr byte =>
    cases hs
    exact ⟨h.bufs, h.total_le, h.ok, h.wire⟩
  | strandRun =>
    simp only [step] at hs
    split at hs
    · cases hs
    · rename_i buf rest hstrand
      cases hs
      exact h.doSendMsg hstrand
  | writeSome i n =>
    simp only [step] at hs
    split at hs
    · cases hs
    · rename_i op hget
      simp only [Option.ite_none_right_eq_some, Option.some.injEq] at hs
      obtain ⟨⟨-, hn, -⟩, rfl⟩ := hs
      have hop := h.total_le op (List.mem_of_getElem? hget)
      exact h.set hget (op.wrote n) rfl _ (by rw [length_read, wrote_total])
        (wrote_total_le hop hn) fun k hk => wrote_ok hop hn hk
  | fail i =>
    simp only [step] at hs
    split at hs
    · cases hs
    · rename_i op hget
      simp only [Option.ite_none_right_eq_some, Option.some.injEq] at hs
      obtain ⟨-, rfl⟩ := hs
      have hop := h.total_le op (List.mem_of_getElem? hget)
      have hset : Counted { s with
          ops := s.ops.set i { op with result := some (.error ()) }, wire := s.wire ++ [] } :=
        h.set hget { op with result := some (.error ()) } rfl [] rfl hop
          fun _ hk => by cases hk
      rw [List.append_nil] at hset
      exact hset

theorem sum_min_lt {ms : List Bytes} {m : Bytes} (hm : m ∈ ms) (hlong : exactly < m.length) :
    (ms.map fun m => min exactly m.length).sum < ms.flatten.length := by
  rw [List.length_flatten]
  exact List.sum_lt_sum _ _ (fun _ _ => min_le_right _ _) ⟨m, hm, by omega⟩

/-- A longer message is never delivered: if all writes have succeeded and the wire holds the
whole concatenation, no message was longer than the bound. -/
theorem lengths_le_of_whole {s : State} (h : Counted s) (hdone : Completed s)
    (hwhole : s.wire = s.sent.flatten) : ∀ m ∈ s.sent, m.length ≤ exactly := by
  intro m hm
  by_contra hlong
  have hlt := sum_min_lt hm (Nat.lt_of_not_le hlong)
  have hsent : s.sent = s.ops.map WriteOp.said := by
    rw [h.bufs, hdone.1, List.map_nil, List.append_nil]
  have htotal : s.ops.map WriteOp.total = s.sent.map fun m => min exactly m.length := by
    rw [hsent, List.map_map]
    refine List.map_congr_left fun op hop => ?_
    obtain ⟨n, hn⟩ := hdone.2 op hop
    exact h.ok op hop n hn
  rw [← htotal, ← h.wire, hwhole] at hlt
  exact lt_irrefl _ hlt

/-! ## Runs that fit -/

/-- Holds in runs whose steps all meet `Fits`. -/
structure Orderly (s : State) : Prop where
  short : ∀ m ∈ s.sent, m.length ≤ exactly
  wire : s.wire = (s.ops.map WriteOp.written).flatten
  oneByOne : OneByOne s.ops
  waiting : ∀ b ∈ s.strand, b.Holds s.memory 0
  outstanding : ∀ op ∈ s.ops, op.result = none → op.buf.Holds s.memory op.total

theorem orderly_init (memory : Memory) : Orderly (init memory) :=
  ⟨by simp [init], rfl, .nil, by simp [init], by simp [init]⟩

theorem holds_sendMsg (m : Memory) (data size : Nat) :
    ConstBuffer.Holds ⟨data, m.read data size⟩ m 0 := by
  simp [ConstBuffer.Holds, ConstBuffer.size]

theorem Orderly.store {s : State} {addr : Nat} {byte : Option UInt8} (h : Orderly s)
    (hf : ¬ Unwritten s addr) :
    Orderly { s with memory := Function.update s.memory addr byte } where
  short := h.short
  wire := h.wire
  oneByOne := h.oneByOne
  waiting b hb := (h.waiting b hb).update fun hin => hf (Or.inl ⟨b, hb, hin⟩)
  outstanding op hop hnone :=
    (h.outstanding op hop hnone).update fun hin =>
      hf (Or.inr ⟨op, hop, Option.isNone_iff_eq_none.mpr hnone, hin⟩)

/-- One operation of the list gets another state. -/
theorem outstanding_set {s : State} {i : Nat} {op' : WriteOp} (h : Orderly s)
    (hop : op'.result = none → op'.buf.Holds s.memory op'.total) :
    ∀ op ∈ s.ops.set i op', op.result = none → op.buf.Holds s.memory op.total := by
  intro b hb hnone
  rcases List.mem_or_eq_of_mem_set hb with hb | rfl
  · exact h.outstanding b hb hnone
  · exact hop hnone

theorem Orderly.sendMsg {s : State} {data size : Nat} (h : Orderly s) (hf : size ≤ exactly) :
    Orderly (Session.sendMsg s data size) := by
  refine ⟨fun m hm => ?_, h.wire, h.oneByOne, fun b hb => ?_, h.outstanding⟩
  · rcases List.mem_append.mp hm with hm | hm
    · exact h.short m hm
    · rw [List.mem_singleton.mp hm, length_read]
      exact hf
  · rcases List.mem_append.mp hb with hb | hb
    · exact h.waiting b hb
    · rw [List.mem_singleton.mp hb]
      exact holds_sendMsg s.memory data size

theorem Orderly.doSendMsg {s : State} {buf : ConstBuffer} {rest : List ConstBuffer}
    (h : Orderly s) (hstrand : s.strand = buf :: rest) :
    Orderly (Session.doSendMsg { s with strand := rest } buf) := by
  refine ⟨h.short, by simp [Session.doSendMsg, h.wire, WriteOp.written], ?_, fun b hb => ?_,
    fun op hop hnone => ?_⟩
  · exact List.pairwise_append.mpr ⟨h.oneByOne, List.pairwise_singleton _ _,
      fun a _ b hb hpos => by simp [List.mem_singleton.mp hb] at hpos⟩
  · exact h.waiting b (hstrand ▸ List.mem_cons_of_mem _ hb)
  · rcases List.mem_append.mp hop with hop | hop
    · exact h.outstanding op hop hnone
    · rw [List.mem_singleton.mp hop]
      exact h.waiting buf (hstrand ▸ List.mem_cons_self)

/-- The next bytes of an operation, behind which nothing has been written. -/
theorem written_wrote {ops : List WriteOp} {i : Nat} {op : WriteOp} (hget : ops[i]? = some op)
    (hrest : ∀ b ∈ ops.drop (i + 1), 0 < b.total → n = 0) :
    ((ops.set i (op.wrote n)).map WriteOp.written).flatten =
      (ops.map WriteOp.written).flatten ++ (op.buf.said.drop op.total).take n := by
  have hwrote : (op.wrote n).written = op.written ++ (op.buf.said.drop op.total).take n := by
    simp only [WriteOp.written, WriteOp.wrote]
    exact List.take_add
  obtain ⟨hops, hset⟩ := ops_split hget (op.wrote n)
  rw [hset]
  conv_rhs => rw [hops]
  by_cases hn0 : n = 0
  · subst hn0
    simp [hwrote]
  · have hnil := written_eq_nil fun b hb =>
      Nat.eq_zero_of_not_pos fun hpos => hn0 (hrest b hb hpos)
    simp only [hwrote, List.map_append, List.map_cons, List.flatten_append, List.flatten_cons, hnil,
      List.append_nil, List.append_assoc]

theorem Orderly.wrote {s : State} {i : Nat} {op : WriteOp} (h : Orderly s)
    (hget : s.ops[i]? = some op) (hnone : op.result = none) (hn : n ≤ op.room)
    (hf : ∀ a ∈ s.ops.take i, a.total = a.buf.size) :
    Orderly { s with
      ops := s.ops.set i (op.wrote n)
      wire := s.wire ++ s.memory.read (op.buf.data + op.total) n } := by
  have hholds := h.outstanding op (List.mem_of_getElem? hget) hnone
  rw [WriteOp.room] at hn
  have hread : s.memory.read (op.buf.data + op.total) n = (op.buf.said.drop op.total).take n := by
    apply hholds.read
    omega
  -- behind an operation that still has room nothing has been written
  have hrest : ∀ b ∈ s.ops.drop (i + 1), 0 < b.total → n = 0 := by
    intro b hb hpos
    have hfull := h.oneByOne.behind hget b hb hpos
    omega
  refine ⟨h.short, ?_, ?_, h.waiting, outstanding_set h fun _ => hholds.advance n⟩
  · rw [written_wrote hget hrest, hread, h.wire]
  · refine h.oneByOne.set hget (op.wrote n) (fun _ => hf) fun b hb hpos => ?_
    have hfull := h.oneByOne.behind hget b hb hpos
    have hn0 := hrest b hb hpos
    subst hn0
    exact hfull

theorem Orderly.fail {s : State} {i : Nat} {op : WriteOp} (h : Orderly s)
    (hget : s.ops[i]? = some op) :
    Orderly { s with ops := s.ops.set i { op with result := some (.error ()) } } := by
  refine ⟨h.short, ?_, ?_, h.waiting, outstanding_set h nofun⟩
  · obtain ⟨hops, hset⟩ := ops_split hget { op with result := some (.error ()) }
    have hwire := h.wire
    rw [hops] at hwire
    simpa [hset, WriteOp.written] using hwire
  · have hbehind := h.oneByOne.behind hget
    exact h.oneByOne.set hget { op with result := some (.error ()) }
      (fun hpos => h.oneByOne.before hget hpos) hbehind

theorem orderly_step {s s' : State} {a : Act} (h : Orderly s) (hf : Fits s a)
    (hs : step s a = some s') : Orderly s' := by
  cases a with
  | sendMsg data size =>
    cases hs
    exact h.sendMsg hf
  | store addr byte =>
    cases hs
    exact h.store hf
  | strandRun =>
    simp only [step] at hs
    split at hs
    · cases hs
    · rename_i buf rest hstrand
      cases hs
      exact h.doSendMsg hstrand
  | writeSome i n =>
    simp only [step] at hs
    split at hs
    · cases hs
    · rename_i op hget
      simp only [Option.ite_none_right_eq_some, Option.some.injEq] at hs
      obtain ⟨⟨hnone, hn, -⟩, rfl⟩ := hs
      exact h.wrote hget (Option.isNone_iff_eq_none.mp hnone) hn hf
  | fail i =>
    simp only [step] at hs
    split at hs
    · cases hs
    · rename_i op hget
      simp only [Option.ite_none_right_eq_some, Option.some.injEq] at hs
      obtain ⟨-, rfl⟩ := hs
      exact h.fail hget

theorem inOrder_of_orderly {s : State} (hc : Counted s) (h : Orderly s) : InOrder s := by
  have hprefix : s.wire <+: (s.ops.map WriteOp.said).flatten :=
    h.wire ▸ written_prefix h.oneByOne
  refine ⟨?_, fun hdone => ?_⟩
  · rw [hc.bufs, List.flatten_append]
    exact hprefix.trans (List.prefix_append _ _)
  · rw [hc.bufs, hdone.1, List.map_nil, List.append_nil, h.wire]
    refine congrArg List.flatten (List.map_congr_left fun op hop => ?_)
    obtain ⟨n, hn⟩ := hdone.2 op hop
    have hshort : op.buf.size ≤ exactly :=
      h.short _ (hc.bufs ▸ List.mem_append_left _ (List.mem_map_of_mem hop))
    rw [WriteOp.written, hc.ok op hop n hn, min_eq_right hshort, ConstBuffer.size, List.take_length]
    rfl

/-- In runs that fit the wire follows the messages; and in any run at all in which every
write succeeds and the wire ends with every message whole, the messages kept to the bound. -/
theorem send_inOrder (memory : Memory) (as : List Act) (s : State) :
    (Guarded step Fits (init memory) as s → InOrder s) ∧
      (run step (init memory) as = some s → Completed s → s.wire = s.sent.flatten →
        ∀ m ∈ s.sent, m.length ≤ exactly) := by
  refine ⟨fun h => ?_, fun h => lengths_le_of_whole (run_invariant (counted_init memory)
    (fun _ _ _ => counted_step) h)⟩
  have hboth : Counted s ∧ Orderly s :=
    guarded_invariant (I := fun s => Counted s ∧ Orderly s)
      ⟨counted_init memory, orderly_init memory⟩
      (fun _ _ _ hi hc hs => ⟨counted_step hi.1 hs, orderly_step hi.2 hc hs⟩) h
  exact inOrder_of_orderly hboth.1 hboth.2

/-- Every address holds its own number. -/
def counting : Memory := fun a => some (UInt8.ofNat a)

/-- Two messages under way at once: the second one is given to asio while the first one is half
written, and the memory of the first one is used again as soon as its last byte is out. -/
def twoMessages : List Act :=
  [.sendMsg 1 3, .sendMsg 4 2, .strandRun, .writeSome 0 2, .strandRun, .writeSome 0 1, .store 1 none,
    .writeSome 1 2]

/-- Where they end. -/
def twoSent : State where
  memory := Function.update counting 1 none
  strand := []
  ops := [⟨⟨1, counting.read 1 3⟩, 3, some (.ok 3)⟩, ⟨⟨4, counting.read 4 2⟩, 2, some (.ok 2)⟩]
  wire := [some 1, some 2, some 3, some 4, some 5]
  sent := [counting.read 1 3, counting.read 4 2]

theorem send_inOrder_twoMessages :
    Guarded step Fits (init counting) twoMessages twoSent ∧
      run step (init counting) twoMessages = some twoSent ∧ Completed twoSent ∧
      InOrder twoSent ∧ ∀ m ∈ twoSent.sent, m.length ≤ exactly := by
  have hG : Guarded step Fits (init counting) twoMessages twoSent := guarded_iff_run.mpr rfl
  have hdone : Completed twoSent := ⟨rfl, by simp [twoSent]⟩
  exact ⟨hG, hG.run_eq, hdone, (send_inOrder _ _ _).1 hG,
    (send_inOrder _ _ _).2 hG.run_eq hdone rfl⟩

/-- A message of eleven bytes loses its last byte although its write succeeds; the second of two
short messages may get ahead of the rest of the first one; and a message that its owner releases
when `send_msg` has returned is read behind the end of its life. -/
theorem not_inOrder :
    (∃ s, run step (init counting) [.sendMsg 0 11, .strandRun, .writeSome 0 10] = some s ∧
        Completed s ∧ ¬ InOrder s) ∧
      (∃ s, run step (init counting) [.sendMsg 1 2, .sendMsg 3 2, .strandRun, .strandRun,
        .writeSome 0 1, .writeSome 1 2] = some s ∧ ¬ InOrder s) ∧
      ∃ s, run step (init counting) [.sendMsg 1 2, .store 1 none, .strandRun, .writeSome 0 2] =
        some s ∧ ¬ InOrder s := by
  refine ⟨⟨_, rfl, ?_⟩, ⟨_, rfl, ?_⟩, ⟨_, rfl, ?_⟩⟩
  · have hdone : Completed
        ⟨counting, [], [⟨⟨0, counting.read 0 11⟩, 10, some (.ok 10)⟩], counting.read 0 10,
          [counting.read 0 11]⟩ := ⟨rfl, by simp⟩
    refine ⟨hdone, fun h => ?_⟩
    have hwhole := congrArg List.length (h.whole hdone)
    cases hwhole
  · intro h
    have hprefix := h.prefix_sent
    revert hprefix
    decide
  · intro h
    have hprefix := h.prefix_sent
    revert hprefix
    decide

end Wish.Session
