/-! # File trees

The files that rules and objects are read from: a tree of directories and files under one
root, each file holding bytes. A path is the list of its components below the root.

Paths are ordered component by component, each compared by its characters, so `a/b.yaml`
comes before `a.yaml`. A name starting with `.` is hidden. A file's extension is the text
after the last `.` of its name, when something stands before that dot.

The operations follow the file system: writing a file creates its missing directories,
removing a directory removes everything under it, and renaming moves a file or a directory
tree to a new path whose parent exists. A tree carries the proof that no two of its entries
stand at one path, and every operation keeps it.

A directory may refuse to be listed, as one without read permission does: it still stands in
the tree, and whatever reads a listing of it fails.
-/

namespace MeterMatch

/-- Inserts `a` before the first element it comes no later than. -/
def insertBy {α : Type} (le : α → α → Bool) (a : α) : List α → List α
  | [] => [a]
  | b :: l => if le a b then a :: b :: l else b :: insertBy le a l

/-- Sorts by insertion, keeping elements that compare equal in their order. -/
def sortBy {α : Type} (le : α → α → Bool) : List α → List α
  | [] => []
  | a :: l => insertBy le a (sortBy le l)

theorem perm_insertBy {α : Type} (le : α → α → Bool) (a : α) (l : List α) :
    (insertBy le a l).Perm (a :: l) := by
  induction l with
  | nil => exact List.Perm.refl _
  | cons b l ih =>
    unfold insertBy
    split
    · exact List.Perm.refl _
    · exact (ih.cons b).trans (List.Perm.swap a b l)

/-- Sorting keeps the elements, each as often. -/
theorem perm_sortBy {α : Type} (le : α → α → Bool) (l : List α) : (sortBy le l).Perm l := by
  induction l with
  | nil => exact List.Perm.refl _
  | cons a l ih => exact (perm_insertBy le a _).trans (ih.cons a)

/-- A path below the root, as its components. -/
abbrev Path := List String

namespace Path

/-- The components of a `/`-separated path; empty and `.` components are dropped. -/
def ofText (s : String) : Path :=
  ((s.toList.splitOn '/').map String.ofList).filter fun c => c != "" && c != "."

/-- The path written with `/` separators. -/
def text (p : Path) : String := "/".intercalate p

/-- The last component. -/
def name (p : Path) : String := p.getLast?.getD ""

/-- Orders paths component by component. -/
def compare : Path → Path → Ordering
  | [], [] => .eq
  | [], _ :: _ => .lt
  | _ :: _, [] => .gt
  | a :: as, b :: bs => (Ord.compare a b).then (compare as bs)

/-- Whether `a` comes no later than `b`. -/
def le (a b : Path) : Bool := compare a b != .gt

/-- Paths in order. -/
def sort (ps : List Path) : List Path := sortBy le ps

/-- Whether the path's name is hidden. -/
def isHidden (p : Path) : Bool := p.name.startsWith "."

/-- The extension of the path's name. -/
def extension? (p : Path) : Option String :=
  match ((p.name.toList.splitOn '.').map String.ofList).reverse with
  | ext :: before :: more => if more.isEmpty && before.isEmpty then none else some ext
  | _ => none

/-- Whether the path names a YAML file: its extension is exactly `yml` or `yaml`. -/
def isYaml (p : Path) : Bool := p.extension? == some "yml" || p.extension? == some "yaml"

/-- Whether `p` lies under `dir` (or is it). -/
def isUnder (p dir : Path) : Bool := dir.isPrefixOf p

/-- Where `p` lands when what stands at `src` moves to `dst`. -/
def relocate (p src dst : Path) : Path := if p.isUnder src then dst ++ p.drop src.length else p

theorem isUnder_iff {p dir : Path} : p.isUnder dir = true ↔ ∃ r, p = dir ++ r := by
  rw [isUnder, List.isPrefixOf_iff_prefix]
  exact ⟨fun ⟨r, h⟩ => ⟨r, h.symm⟩, fun ⟨r, h⟩ => ⟨r, h.symm⟩⟩

theorem append_isUnder (dir r : Path) : (dir ++ r).isUnder dir = true := isUnder_iff.2 ⟨r, rfl⟩

/-- Relocation moves no two paths that lie outside `dst` to one place. -/
theorem relocate_inj {p q src dst : Path} (hp : p.isUnder dst = false) (hq : q.isUnder dst = false)
    (h : p.relocate src dst = q.relocate src dst) : p = q := by
  unfold relocate at h
  by_cases hps : p.isUnder src = true <;> by_cases hqs : q.isUnder src = true <;>
    simp only [hps, hqs, if_true, if_false, Bool.false_eq_true] at h
  · -- both lie under `src`, so each is `src` followed by what `dst` is followed by
    obtain ⟨r, rfl⟩ := isUnder_iff.1 hps
    obtain ⟨r', rfl⟩ := isUnder_iff.1 hqs
    simpa using h
  · exact absurd (h ▸ append_isUnder dst _) (by simp [hq])
  · exact absurd (h ▸ append_isUnder dst _) (by simp [hp])
  · exact h

end Path

/-- Pairs with distinct first components keep them distinct with a pair of a new one added. -/
theorem nodup_map_fst_append {α β : Type} {es : List (α × β)} (hd : (es.map (·.1)).Nodup)
    {a : α} (ha : a ∉ es.map (·.1)) (b : β) : ((es ++ [(a, b)]).map (·.1)).Nodup := by
  rw [List.map_append, List.nodup_append]
  refine ⟨hd, List.nodup_cons.2 ⟨List.not_mem_nil, List.nodup_nil⟩, fun x hx y hy hxy => ?_⟩
  simp only [List.map_cons, List.map_nil, List.mem_singleton] at hy
  exact ha (hy ▸ hxy ▸ hx)

/-- Pairs with distinct first components keep them distinct when some are left out. -/
theorem nodup_map_fst_filter {α β : Type} {es : List (α × β)} (hd : (es.map (·.1)).Nodup)
    (f : α × β → Bool) : ((es.filter f).map (·.1)).Nodup :=
  hd.sublist (List.filter_sublist.map _)

/-- What stands at a path: a file with its bytes, or a directory, which can be listed or not. -/
inductive Entry where
  | file (bytes : List UInt8)
  | dir (listable : Bool := true)
  deriving DecidableEq, Inhabited

/-- A directory tree; the root is a directory and every ancestor of an entry is one. No two
entries stand at one path. -/
@[ext] structure FileTree where
  entries : List (Path × Entry) := []
  distinct : (entries.map (·.1)).Nodup := by decide

instance : Inhabited FileTree := ⟨{ entries := [], distinct := List.nodup_nil }⟩

namespace FileTree

/-- What stands at a path. -/
def get? (t : FileTree) (p : Path) : Option Entry :=
  if p.isEmpty then some .dir else (t.entries.find? (·.1 == p)).map (·.2)

/-- Whether a directory stands at a path, whether it can be listed or not. -/
def isDir (t : FileTree) (p : Path) : Bool :=
  match t.get? p with
  | some (.dir _) => true
  | _ => false

/-- Whether a directory that can be listed stands at a path. -/
def listable (t : FileTree) (p : Path) : Bool := t.get? p == some (.dir true)

/-- Whether anything stands at a path. -/
def exists_ (t : FileTree) (p : Path) : Bool := (t.get? p).isSome

/-- The bytes of the file at a path. -/
def bytes? (t : FileTree) (p : Path) : Option (List UInt8) :=
  match t.get? p with
  | some (.file b) => some b
  | _ => none

/-- The text of the file at a path, if it is a file of valid UTF-8. -/
def text? (t : FileTree) (p : Path) : Option String := do
  String.fromUTF8? (ByteArray.mk (← t.bytes? p).toArray)

/-- The names in a directory, in order. -/
def children (t : FileTree) (d : Path) : List String :=
  let names := t.entries.filterMap fun (p, _) =>
    if p.length == d.length + 1 && d.isPrefixOf p then some p.name else none
  sortBy (fun a b => a ≤ b) names

/-- Replacing the entry at a path keeps every path where it is. -/
theorem paths_setAt (es : List (Path × Entry)) (p : Path) (e : Entry) :
    (es.map fun x => if x.1 == p then (p, e) else x).map (·.1) = es.map (·.1) := by
  rw [List.map_map]
  apply List.map_congr_left
  intro x _
  by_cases h : x.1 = p <;> simp [h]

/-- Sets the entry at a path. -/
def set (t : FileTree) (p : Path) (e : Entry) : FileTree :=
  if h : t.entries.any (·.1 == p) then
    { entries := t.entries.map fun x => if x.1 == p then (p, e) else x
      distinct := by rw [paths_setAt]; exact t.distinct }
  else
    { entries := t.entries ++ [(p, e)]
      distinct := nodup_map_fst_append t.distinct (by simpa using h) e }

/-- Creates a directory and its missing ancestors; fails where a file stands in the way. -/
def makeDirs (t : FileTree) (p : Path) : Option FileTree :=
  (List.range p.length).foldlM (fun t i =>
    let q := p.take (i + 1)
    match t.get? q with
    | some (.dir _) => some t
    | some (.file _) => none
    | none => some (t.set q .dir)) t

/-- Writes a file, creating its directory; fails if a directory stands at the path. -/
def write (t : FileTree) (p : Path) (bytes : List UInt8) : Option FileTree := do
  if p.isEmpty || t.isDir p then none
  else
    let t ← t.makeDirs p.dropLast
    some (t.set p (.file bytes))

/-- The files at or under a path, in order. -/
def filesUnder (t : FileTree) (p : Path) : List Path :=
  Path.sort (t.entries.filterMap fun (q, e) =>
    match e with
    | .file _ => if q.isUnder p then some q else none
    | .dir _ => none)

/-- Removes a file or a directory tree; fails if nothing stands there. -/
def remove (t : FileTree) (p : Path) : Option FileTree :=
  if p.isEmpty || !t.exists_ p then none
  else
    some { entries := t.entries.filter fun (q, _) => !q.isUnder p
           distinct := nodup_map_fst_filter t.distinct _ }

/-- Relocating the entries outside `dst` keeps their paths distinct. -/
theorem nodup_relocate {es : List (Path × Entry)} (hd : (es.map (·.1)).Nodup) (src dst : Path) :
    (((es.filter fun x => !x.1.isUnder dst).map fun x => (x.1.relocate src dst, x.2)).map
      (·.1)).Nodup := by
  have hkept := nodup_map_fst_filter hd fun x => !x.1.isUnder dst
  rw [List.map_map]
  rw [List.Nodup, List.pairwise_map] at hkept ⊢
  refine hkept.imp_of_mem fun {a b} ha hb hab h => hab (Path.relocate_inj ?_ ?_ h)
  · simpa using (List.mem_filter.1 ha).2
  · simpa using (List.mem_filter.1 hb).2

/-- Every entry at or under `src` moved to the same place under `dst`, replacing what stood
at or under `dst`. -/
def move (t : FileTree) (src dst : Path) : FileTree :=
  let kept := t.entries.filter fun x => !x.1.isUnder dst
  { entries := kept.map fun x => (x.1.relocate src dst, x.2)
    distinct := nodup_relocate t.distinct src dst }

/-- Whether a directory holds anything. -/
def hasChildren (t : FileTree) (d : Path) : Bool :=
  t.entries.any fun (q, _) => q.isUnder d && q != d

/-- Moves a file or a directory tree to a new path. The new path's parent must be a directory;
a file may replace a file, a directory may replace an empty directory, and a directory may
not move into itself. -/
def rename (t : FileTree) (src dst : Path) : Option FileTree :=
  match t.get? src with
  | none => none
  | some e =>
    if src.isEmpty || dst.isEmpty || !t.isDir dst.dropLast then none
    else if src == dst then some t
    else
      match e, t.get? dst with
      | .file _, some (.dir _) => none
      | .file _, _ => some (t.move src dst)
      | .dir _, some (.file _) => none
      | .dir _, some (.dir _) =>
        if t.hasChildren dst || dst.isUnder src then none else some (t.move src dst)
      | .dir _, none => if dst.isUnder src then none else some (t.move src dst)

end FileTree

end MeterMatch
