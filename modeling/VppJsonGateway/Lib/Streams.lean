import VppJsonGateway.Lib.Bytes

/-!
# Streams

An append-only stream of entries as a Redis server keeps it: every entry has an ID larger than
those before it, also after entries were deleted.
-/

namespace Lib

/-- An entry of a stream: its ID and its fields. -/
structure Entry where
  id : Nat
  fields : List (Bytes × Bytes)
  deriving DecidableEq

/-- A stream, oldest entry first, and the last ID it has given. -/
structure Stream where
  entries : List Entry := []
  last : Nat := 0

namespace Stream

/-- The entry the next `XADD` makes. -/
def next (s : Stream) (fields : List (Bytes × Bytes)) : Entry := ⟨s.last + 1, fields⟩

/-- `XADD` with a generated ID. -/
def add (s : Stream) (fields : List (Bytes × Bytes)) : Stream :=
  ⟨s.entries ++ [s.next fields], s.last + 1⟩

/-- `XDEL`. -/
def delete (s : Stream) (id : Nat) : Stream := { s with entries := s.entries.filter (·.id ≠ id) }

/-- `DEL` of the key; the IDs given later are larger all the same. -/
def clear (s : Stream) : Stream := { s with entries := [] }

/-- All entries but the deleted one stay. -/
theorem mem_delete {s : Stream} {id : Nat} {e : Entry} :
    e ∈ (s.delete id).entries ↔ e ∈ s.entries ∧ e.id ≠ id := by
  simp [delete]

/-- All entries stay, and the new one comes. -/
theorem mem_add {s : Stream} {fields : List (Bytes × Bytes)} {e : Entry} :
    e ∈ (s.add fields).entries ↔ e ∈ s.entries ∨ e = s.next fields := by
  simp [add]

end Stream

end Lib
