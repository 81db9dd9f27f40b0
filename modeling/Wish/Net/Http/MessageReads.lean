import Wish.Net.Http.Message
import Mathlib.Data.Set.Basic
import Mathlib.Data.List.GetD

/-!
# What `message::parse_from_array` reads

`http_parser_execute` is given `data` and `size` and reads so many bytes. Where it fails, the
bytes it has not parsed are logged as a C string, which ends at a NUL wherever there is one: in
the session, `data` is a buffer that keeps the ends of earlier reads.
-/

namespace Wish.Http

/-- The bytes from `start` on up to the first NUL, which is read as well. -/
def cStringReads (data : Nat → Char) (start : Nat) : Set Nat :=
  {i | start ≤ i ∧ ∀ j, start ≤ j → j < i → data j ≠ NUL}

/-- A C string ends within the first `size` bytes exactly when one of them is a NUL. -/
theorem cStringReads_subset_iff {data : Nat → Char} {start size : Nat} :
    cStringReads data start ⊆ {i | i < size} ↔ ∃ i, start ≤ i ∧ i < size ∧ data i = NUL := by
  constructor
  · intro h
    by_contra hno
    have hread : max start size ∈ cStringReads data start := by
      refine ⟨Nat.le_max_left start size, fun j hj hlt heq => hno ⟨j, hj, ?_, heq⟩⟩
      omega
    have hlt : max start size < size := h hread
    omega
  · rintro ⟨i, hi, hsize, heq⟩ k ⟨-, hk⟩
    by_contra hge
    exact hk i hi (Nat.lt_of_lt_of_le hsize (Nat.le_of_not_lt hge)) heq

namespace Message

variable {hp : HttpParser} {m : Message hp}

/-- The `size` bytes from `data` on. -/
def bytes (data : Nat → Char) (size : Nat) : Text := (List.range size).map data

/-- The bytes read by `parse_from_array(data, size)`. -/
def parseReads (m : Message hp) (data : Nat → Char) (size : Nat) : Set Nat :=
  {i | i < size} ∪ match m.drive (hp.execute m.mParser (bytes data size)) with
    -- the assertion of a callback has failed
    | none => ∅
    | some (m, parsed) =>
      -- `std::string(data + parsed)`
      if m.mParser.fields.httpErrno ≠ 0 then cStringReads data parsed else ∅

/-- Where the parser has failed, if it has. -/
def failedAt (m : Message hp) (frag : Text) : Option Nat :=
  (m.drive (hp.execute m.mParser frag)).bind fun r =>
    if r.1.mParser.fields.httpErrno ≠ 0 then some r.2 else none

/-- **Only `size` bytes are read** exactly when a failure has a NUL behind it among them. -/
theorem parseReads_subset_iff (m : Message hp) (data : Nat → Char) (size : Nat) :
    m.parseReads data size ⊆ {i | i < size} ↔
      ∀ parsed ∈ m.failedAt (bytes data size), ∃ i, parsed ≤ i ∧ i < size ∧ data i = NUL := by
  rw [parseReads, Set.union_subset_iff, and_iff_right Set.Subset.rfl, failedAt]
  cases m.drive (hp.execute m.mParser (bytes data size)) with
  | none => simp
  | some r =>
    obtain ⟨m', parsed⟩ := r
    simp only [Option.bind_some]
    split
    · rw [cStringReads_subset_iff]
      simp
    · simp

/-! ## The buffer of the session -/

/-- The buffer, and what is behind it, when `async_read_some` has stored a fragment. -/
def received (buffer : Nat → Char) (frag : Text) : Nat → Char := fun i => frag.getD i (buffer i)

theorem bytes_received (buffer : Nat → Char) (frag : Text) :
    bytes (received buffer frag) frag.length = frag := by
  unfold bytes
  apply List.ext_getElem
  · rw [List.length_map, List.length_range]
  · intro i hi hfrag
    rw [List.getElem_map, List.getElem_range, received, List.getD_eq_getElem _ _ hfrag]

/-- Where the bytes received have no NUL behind the failure, the log has bytes of the buffer that
were not received. -/
theorem received_reads_iff (m : Message hp) (buffer : Nat → Char) (frag : Text) :
    m.parseReads (received buffer frag) frag.length ⊆ {i | i < frag.length} ↔
      ∀ parsed ∈ m.failedAt frag, NUL ∈ frag.drop parsed := by
  rw [parseReads_subset_iff, bytes_received]
  refine forall₂_congr fun parsed _ => ?_
  rw [List.mem_drop_iff_getElem]
  constructor
  · rintro ⟨i, hi, hlt, heq⟩
    rw [received, List.getD_eq_getElem _ _ hlt] at heq
    refine ⟨i - parsed, by omega, ?_⟩
    simp only [Nat.add_sub_cancel' hi]
    exact heq
  · rintro ⟨i, hlt, heq⟩
    refine ⟨parsed + i, by omega, by omega, ?_⟩
    rw [received, List.getD_eq_getElem _ _ (by omega)]
    exact heq

/-- A read of 1024 bytes without a NUL, and then one of the byte `x`, which is no beginning of a
response. -/
theorem not_parseReads_subset :
    ¬ (new .response 0 0 : Message (.ofTable [])).parseReads
      (received (received (fun _ => NUL) (List.replicate 1024 'y')) ['x']) 1 ⊆ {i | i < 1} := by
  intro h
  have hnul : NUL ∈ ['x'].drop 0 := (received_reads_iff _ _ ['x']).mp h 0 rfl
  exact absurd hnul (by decide)

end Message

end Wish.Http
