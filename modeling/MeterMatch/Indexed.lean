import MeterMatch.Key

/-! # Indexed tables

A table of items by key, in insertion order, with an inverted index: each item is listed
under the values its index function gives (an association under its rules), and each value
maps to the set of keys listed under it. Writes keep both in step: replacing an item first
takes its old key off the index, and a value whose set empties leaves the index.

* `Indexed.byIndex` gives the items under a value, ordered by key.
* `Indexed.indexValues` gives the values with at least one item, in key order.
* `Indexed.verify` rebuilds the index from the items and compares.

A write works on the table in place, as the source does: it first takes the key off the sets of
the old item's values (`Indexed.unindex`), checking that each of them lists the key before it
changes any; if one is missing the index is corrupt, and the write fails with the table as it
stands. Only then is the new item indexed and stored.
-/

namespace MeterMatch

/-- Inserts into a key list kept ascending and free of repeats. -/
def ObjectKey.insertSorted (k : ObjectKey) : List ObjectKey → List ObjectKey
  | [] => [k]
  | x :: rest =>
    match ObjectKey.compare k x with
    | .lt => k :: x :: rest
    | .eq => x :: rest
    | .gt => x :: insertSorted k rest

/-- How an inverted index can disagree with its items. -/
inductive IndexFault where
  /-- The key's item names a value whose set lacks the key. -/
  | missingEntry (key value : ObjectKey)
  /-- A value's set holds a key with no item. -/
  | dangling (value key : ObjectKey)
  /-- The index differs from the one the items give. -/
  | diverged
  deriving DecidableEq, Inhabited

/-- The fault's text. -/
def IndexFault.message : IndexFault → String
  | .missingEntry k v => "index invariant violated: '" ++ k.display ++ "' indexed under '" ++
      v.display ++ "' but the index entry is missing"
  | .dangling v k => "index invariant violated: index '" ++ v.display ++ "' references '" ++
      k.display ++ "' which is not stored"
  | .diverged => "index invariant violated: inverted index does not match stored items"

/-- A table with an inverted index. -/
structure Indexed (α : Type) where
  /-- The values an item is listed under. -/
  indexOf : α → List ObjectKey
  /-- Items in insertion order, one per key. -/
  items : List (ObjectKey × α) := []
  /-- Each value with the keys listed under it, ascending; no set is empty. -/
  index : List (ObjectKey × List ObjectKey) := []

namespace Indexed

variable {α : Type}

/-- The item of a key. -/
def get? (t : Indexed α) (k : ObjectKey) : Option α := (t.items.find? (·.1 == k)).map (·.2)

/-- Whether a key is stored. -/
def contains (t : Indexed α) (k : ObjectKey) : Bool := t.items.any (·.1 == k)

/-- Lists a key under a value. -/
def listUnder (k v : ObjectKey) (index : List (ObjectKey × List ObjectKey)) :
    List (ObjectKey × List ObjectKey) :=
  if index.any (·.1 == v) then index.map fun e => if e.1 == v then (v, k.insertSorted e.2) else e
  else index ++ [(v, [k])]

/-- Takes a key off a value's set, dropping that value when its set empties; other values are
left as they are. -/
def unlistUnder (k v : ObjectKey) (index : List (ObjectKey × List ObjectKey)) :
    List (ObjectKey × List ObjectKey) :=
  index.filterMap fun e =>
    if e.1 == v then
      let ks := e.2.filter (· != k)
      if ks.isEmpty then none else some (v, ks)
    else some e

/-- The index with `k` listed under the values of `item`. -/
def indexItem (t : Indexed α) (k : ObjectKey) (item : α)
    (index : List (ObjectKey × List ObjectKey)) : List (ObjectKey × List ObjectKey) :=
  (t.indexOf item).foldl (fun ix v => listUnder k v ix) index

/-- The keys listed under a value. -/
def keysUnder (t : Indexed α) (v : ObjectKey) : List ObjectKey :=
  ((t.index.find? (·.1 == v)).map (·.2)).getD []

/-- Takes `k` off the sets of the values of `item`, after checking that each of them lists `k`;
when one does not, the table is left as it is. -/
def unindex (t : Indexed α) (k : ObjectKey) (item : α) : Except IndexFault Unit × Indexed α :=
  match (t.indexOf item).find? (fun v => !(t.keysUnder v).contains k) with
  | some v => (.error (.missingEntry k v), t)
  | none => (.ok (), { t with index := (t.indexOf item).foldl (fun ix v => unlistUnder k v ix) t.index })

/-- Stores an item, keeping the key's place if it was stored; gives the previous item. The old
item leaves the index first, and the new one is indexed and stored only when that succeeded. -/
def upsert (t : Indexed α) (k : ObjectKey) (item : α) : Except IndexFault (Option α) × Indexed α :=
  let previous := t.get? k
  let (unindexed, t) := match previous with
    | some prev => t.unindex k prev
    | none => (.ok (), t)
  match unindexed with
  | .error f => (.error f, t)
  | .ok () =>
    (.ok previous, { t with
      items := if previous.isSome then t.items.map fun e => if e.1 == k then (k, item) else e
        else t.items ++ [(k, item)]
      index := t.indexItem k item t.index })

/-- Drops an item; later items move up. Gives the dropped item. The item leaves the index first,
and the key is dropped only when that succeeded. -/
def remove (t : Indexed α) (k : ObjectKey) : Except IndexFault (Option α) × Indexed α :=
  match t.get? k with
  | none => (.ok none, t)
  | some prev =>
    match t.unindex k prev with
    | (.error f, t) => (.error f, t)
    | (.ok (), t) => (.ok (some prev), { t with items := t.items.filter (·.1 != k) })

/-- The items listed under a value, ordered by key. -/
def byIndex (t : Indexed α) (v : ObjectKey) : Except IndexFault (List α) :=
  (t.keysUnder v).mapM fun k => match t.get? k with
    | some item => .ok item
    | none => .error (.dangling v k)

/-- The values with at least one item, ascending. -/
def indexValues (t : Indexed α) : List ObjectKey := ObjectKey.sort (t.index.map (·.1))

/-- The stored keys in insertion order. -/
def keys (t : Indexed α) : List ObjectKey := t.items.map (·.1)

/-- The stored items in insertion order. -/
def list (t : Indexed α) : List α := t.items.map (·.2)

/-- The number of items. -/
def size (t : Indexed α) : Nat := t.items.length

/-- The index built afresh from the items. -/
def rebuild (t : Indexed α) : List (ObjectKey × List ObjectKey) :=
  t.items.foldl (fun ix (k, item) => t.indexItem k item ix) []

/-- Checks that the stored index lists the same keys under the same values as a fresh one. -/
def verify (t : Indexed α) : Except IndexFault Unit :=
  let fresh := t.rebuild
  if fresh.length == t.index.length && fresh.all fun (v, ks) => t.keysUnder v == ks then .ok ()
  else .error .diverged

end Indexed

end MeterMatch
