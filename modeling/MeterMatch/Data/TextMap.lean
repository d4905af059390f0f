import MeterMatch.Data.Read

/-! # Text maps

Labels and annotations map texts to texts. A `TextMap` keeps its entries in ascending key order
(code point order, which is the byte order of UTF-8), one entry per key; inserting a key that
is present replaces its value. Reading a mapping document inserts its entries in order, so a
key given twice keeps its last value.
-/

namespace MeterMatch

/-- Entries in ascending key order, one per key. -/
structure TextMap where
  entries : List (String × String) := []
  deriving DecidableEq, Inhabited

namespace TextMap

/-- Inserts into a list kept in ascending key order, replacing an equal key. -/
def insertSorted (k v : String) : List (String × String) → List (String × String)
  | [] => [(k, v)]
  | (k', v') :: rest =>
    if k < k' then (k, v) :: (k', v') :: rest
    else if k = k' then (k, v) :: rest
    else (k', v') :: insertSorted k v rest

/-- Sets a key's value. -/
def insert (m : TextMap) (k v : String) : TextMap := ⟨insertSorted k v m.entries⟩

/-- The value of a key. -/
def get? (m : TextMap) (k : String) : Option String :=
  (m.entries.find? (·.1 == k)).map (·.2)

/-- Whether the map has the key. -/
def contains (m : TextMap) (k : String) : Bool := m.entries.any (·.1 == k)

/-- Whether the map is empty. -/
def isEmpty (m : TextMap) : Bool := m.entries.isEmpty

/-- The map of the given pairs, later pairs winning. -/
def ofList (pairs : List (String × String)) : TextMap :=
  pairs.foldl (fun m (k, v) => m.insert k v) {}

/-- Reads a mapping of texts to texts. -/
def read (n : Node) : Decode TextMap := do
  let pairs ← (← n.entries).mapM fun (k, v) => return ((← k.string), (← v.string))
  return ofList pairs

/-- The mapping document. -/
def toNode (m : TextMap) : Node := Node.record (m.entries.map fun (k, v) => (k, .str v))

end TextMap

end MeterMatch
