import MeterMatch.Key

/-! # Deltas and how they coalesce

A delta records that an object was added, updated or deleted. When a second delta for the same
key arrives before the first was handled, the two become one: `DeltaKind.coalesce` gives the
kind of the combined delta, or `none` when an addition and a deletion cancel out. The
`retainDeletes` policy keeps such a deletion instead, for consumers that must hear of every
removal. The combined delta always carries the later payload.
-/

namespace MeterMatch

/-- What happened to an object. -/
inductive DeltaKind where
  | added
  | updated
  | deleted
  deriving DecidableEq, Inhabited, Repr

namespace DeltaKind

/-- The kind's name: `Added`, `Updated` or `Deleted`. -/
def name : DeltaKind → String
  | added => "Added"
  | updated => "Updated"
  | deleted => "Deleted"

/-- Reads a kind's name back. -/
def ofName? : String → Option DeltaKind
  | "Added" => some added
  | "Updated" => some updated
  | "Deleted" => some deleted
  | _ => none

/-- The kind of two deltas taken together, `earlier` first: an addition stays an addition
unless deleted, which cancels it; a deletion followed by anything but a deletion is an update;
otherwise the later word on deletion wins. -/
def coalesce : DeltaKind → DeltaKind → Option DeltaKind
  | added, deleted => none
  | added, _ => some added
  | updated, deleted => some deleted
  | deleted, deleted => some deleted
  | updated, _ => some updated
  | deleted, _ => some updated

end DeltaKind

/-- How a queue combines two deltas of one key. -/
inductive Policy where
  /-- An addition and a deletion that nobody has seen cancel out. -/
  | cancelUnseen
  /-- A deletion is never lost: an addition followed by a deletion is a deletion. -/
  | retainDeletes
  deriving DecidableEq, Inhabited, Repr

namespace Policy

/-- The policy's name. -/
def name : Policy → String
  | cancelUnseen => "CancelUnseen"
  | retainDeletes => "RetainDeletes"

/-- Reads a policy's name back. -/
def ofName? : String → Option Policy
  | "CancelUnseen" => some cancelUnseen
  | "RetainDeletes" => some retainDeletes
  | _ => none

/-- The kind of two deltas taken together under this policy. -/
def coalesce : Policy → DeltaKind → DeltaKind → Option DeltaKind
  | retainDeletes, .added, .deleted => some .deleted
  | _, earlier, later => earlier.coalesce later

end Policy

/-- A change to the object with key `key`, carrying the object as it now is (or was, for a
deletion). -/
structure Delta (α : Type) where
  kind : DeltaKind
  key : ObjectKey
  payload : α
  deriving Inhabited

namespace Delta

variable {α : Type}

/-- Two deltas of one key taken together: the coalesced kind with the later payload. -/
def merge (p : Policy) (earlier later : Delta α) : Option (Delta α) :=
  (p.coalesce earlier.kind later.kind).map fun kind => ⟨kind, later.key, later.payload⟩

theorem key_of_merge {p : Policy} {a b m : Delta α} (h : merge p a b = some m) : m.key = b.key := by
  unfold merge at h
  cases hk : p.coalesce a.kind b.kind with
  | none => simp [hk] at h
  | some k =>
    simp only [hk, Option.map_some, Option.some.injEq] at h
    rw [← h]

end Delta

end MeterMatch
