import MeterMatch.Loader.Reload
import Mathlib.Tactic.Linarith
import Mathlib.Data.List.Nodup
import MeterMatch.Proofs.OneShotRun

/-! # Rescans and generations

A loader records one definition per path of its rule directory. This module says what a rescan
(`Loader.loadAll`) leaves recorded, path by path, and how the generation recorded for a path
moves.

* `Definition.bump`: a re-read definition keeps the recorded generation when its spec is
  unchanged and its own generation no newer (`Definition.bump_generation_of_same`), and
  otherwise gets a generation other than the recorded one (`Definition.bump_generation_ne`).
  The next generation is counted in 64-bit arithmetic: below the largest it grows
  (`Definition.bump_generation_lt`), but from the largest it wraps to the smallest
  (`Definition.bump_wraps`).
* `Loader.loadAll_get?_eq`: for every loader and tree, a rescan records for each listed YAML file
  that is not hidden its loaded definition bumped against the previous record, keeps the
  previous record of such a file that fails to load, and records nothing else
  (`Loader.loadAll_get?_of_ok`, `Loader.loadAll_get?_of_error`, `Loader.loadAll_get?_of_unread`).
  A rescan lists no file below a directory that cannot be listed, so it forgets every record
  there, though the files may still be there and load
  (`Loader.loadAll_forgets_below_unlistable`).
* `Loader.rereadAll_generation`: along any run of rescans and hot-reload reads during which a
  path stays recorded with a generation below the largest, the recorded generation never
  decreases and increases whenever the recorded spec changes. A re-read of a file that keeps the
  spec and carries no newer generation keeps it (`Loader.Rereads.generation_stays`); from the
  largest generation an edit wraps to the smallest (`Loader.loadAll_wraps`).
-/

namespace MeterMatch

namespace Definition

/-- The largest 64-bit generation. -/
def maxGeneration : Int := 9223372036854775807

/-- The smallest 64-bit generation. -/
def minGeneration : Int := -9223372036854775808

variable {previous next : Definition}

@[simp] theorem withGeneration_generation (d : Definition) (g : Int) :
    (d.withGeneration g).generation = g := rfl

@[simp] theorem withGeneration_spec (d : Definition) (g : Int) :
    (d.withGeneration g).spec = d.spec := rfl

@[simp] theorem withGeneration_key (d : Definition) (g : Int) :
    (d.withGeneration g).key = d.key := rfl

@[simp] theorem bump_spec (previous next : Definition) : (previous.bump next).spec = next.spec := by
  unfold bump
  split <;> rfl

@[simp] theorem bump_key (previous next : Definition) : (previous.bump next).key = next.key := by
  unfold bump
  split <;> rfl

theorem bump_of_lt (h : previous.generation < next.generation) : previous.bump next = next := by
  unfold bump
  rw [if_neg (by omega)]

theorem bump_generation_of_le (h : next.generation ≤ previous.generation) :
    (previous.bump next).generation = if next.spec = previous.spec then previous.generation
      else (Int64.ofInt previous.generation + 1).toInt := by
  unfold bump
  rw [if_pos h, withGeneration_generation]
  simp only [beq_iff_eq]

/-- The next 64-bit generation of one below the largest is one more. -/
theorem succ_generation {g : Int} (hlo : minGeneration ≤ g) (hhi : g < maxGeneration) :
    (Int64.ofInt g + 1).toInt = g + 1 := by
  rw [Int64.toInt_add, Int64.toInt_ofInt, Int64.toInt_one]
  simp only [minGeneration, maxGeneration] at hlo hhi
  have hg : g.bmod Int64.size = g := Int.bmod_eq_of_le (by simp [Int64.size]; omega)
    (by simp [Int64.size]; omega)
  rw [hg]
  exact Int.bmod_eq_of_le (by simp; omega) (by simp; omega)

/-- The next 64-bit generation of any is another. -/
theorem succ_generation_ne (g : Int) : (Int64.ofInt g + 1).toInt ≠ g := by
  rw [Int64.toInt_add, Int64.toInt_ofInt, Int64.toInt_one]
  intro h
  -- both sides agree modulo `2 ^ 64`, so `g + 1` and `g` would
  have h1 : (g.bmod Int64.size + 1).bmod (2 ^ 64) % ((2 ^ 64 : Nat) : Int) =
      (g.bmod Int64.size + 1) % ((2 ^ 64 : Nat) : Int) := Int.bmod_emod
  have h2 : g.bmod Int64.size % (Int64.size : Int) = g % (Int64.size : Int) := Int.bmod_emod
  rw [h] at h1
  simp only [Int64.size] at h1 h2
  omega

/-- A re-read definition with its spec unchanged and its generation no newer keeps the
recorded generation. -/
theorem bump_generation_of_same (hs : next.spec = previous.spec)
    (hg : next.generation ≤ previous.generation) :
    (previous.bump next).generation = previous.generation := by
  rw [bump_generation_of_le hg, if_pos hs]

/-- A re-read definition with another spec gets a generation other than the recorded one. -/
theorem bump_generation_ne (hs : next.spec ≠ previous.spec) :
    (previous.bump next).generation ≠ previous.generation := by
  by_cases hg : next.generation ≤ previous.generation
  · rw [bump_generation_of_le hg, if_neg hs]
    exact succ_generation_ne _
  · rw [bump_of_lt (by omega)]
    omega

/-- Below the largest generation, a re-read never lowers the generation, and raises it when the
spec changes. -/
theorem bump_generation_lt (hlo : minGeneration ≤ previous.generation)
    (hhi : previous.generation < maxGeneration) :
    previous.generation ≤ (previous.bump next).generation ∧
      (next.spec ≠ previous.spec → previous.generation < (previous.bump next).generation) := by
  by_cases hg : next.generation ≤ previous.generation
  · rw [bump_generation_of_le hg]
    by_cases hs : next.spec = previous.spec
    · rw [if_pos hs]
      exact ⟨le_refl _, fun h => absurd hs h⟩
    · rw [if_neg hs, succ_generation hlo hhi]
      omega
  · rw [bump_of_lt (by omega)]
    omega

/-- From the largest generation, a re-read with another spec and no newer generation wraps to
the smallest. -/
theorem bump_wraps (hmax : previous.generation = maxGeneration) (hs : next.spec ≠ previous.spec)
    (hg : next.generation ≤ previous.generation) :
    (previous.bump next).generation = minGeneration := by
  rw [bump_generation_of_le hg, if_neg hs, hmax]
  decide

end Definition

/-! ## Recorded definitions -/

namespace Loader

variable {l : Loader} {p q : Path} {d : Definition}

/-- In a list without two entries at one path, the entry found for a path is the one there. -/
theorem find?_path_eq_some_iff {α : Type} {ds : List (Path × α)} (hn : (ds.map (·.1)).Nodup)
    {e : Path × α} : ds.find? (·.1 == p) = some e ↔ e ∈ ds ∧ e.1 = p := by
  induction ds with
  | nil => simp
  | cons x ds ih =>
    rw [List.map_cons, List.nodup_cons] at hn
    rw [List.find?_cons]
    by_cases hx : x.1 = p
    · have hxe : e ∈ ds → e.1 = p → False := fun he hep =>
        hn.1 (hx ▸ hep ▸ List.mem_map_of_mem he)
      simp only [hx, beq_self_eq_true, Option.some.injEq, List.mem_cons]
      constructor
      · rintro rfl; exact ⟨.inl rfl, hx⟩
      · rintro ⟨rfl | he, hep⟩
        · rfl
        · exact absurd hep (fun h => hxe he h)
    · have hxp : (x.1 == p) = false := by simpa using hx
      simp only [hxp, ih hn.2, List.mem_cons]
      constructor
      · rintro ⟨he, hep⟩; exact ⟨.inr he, hep⟩
      · rintro ⟨rfl | he, hep⟩
        · exact absurd hep hx
        · exact ⟨he, hep⟩

theorem get?_eq_some_iff : l.get? p = some d ↔ (p, d) ∈ l.definitions := by
  unfold get?
  constructor
  · intro h
    obtain ⟨e, he, rfl⟩ := Option.map_eq_some_iff.1 h
    obtain ⟨hmem, rfl⟩ := (find?_path_eq_some_iff l.distinct).1 he
    exact hmem
  · intro h
    rw [(find?_path_eq_some_iff l.distinct).2 ⟨h, rfl⟩]
    rfl

/-- The record of a path is what the loader holds with that path. -/
theorem get?_of_mem_iff {o : Option Definition} (h : ∀ e, (q, e) ∈ l.definitions ↔ o = some e) :
    l.get? q = o := by
  cases ho : o with
  | some e => exact get?_eq_some_iff.2 ((h e).2 ho)
  | none =>
    cases hq : l.get? q with
    | none => rfl
    | some e =>
      have := (h e).1 (get?_eq_some_iff.1 hq)
      rw [ho] at this
      cases this

theorem mem_record {e : Definition} :
    (q, e) ∈ (l.record p d).definitions ↔ (q = p ∧ e = d) ∨ (q ≠ p ∧ (q, e) ∈ l.definitions) := by
  simp only [record, (perm_sortBy _ _).mem_iff, List.mem_append, List.mem_filter,
    List.mem_singleton, Prod.mk.injEq, bne_iff_ne, ne_eq]
  tauto

theorem get?_record : (l.record p d).get? q = if q = p then some d else l.get? q := by
  apply get?_of_mem_iff
  intro e
  rw [mem_record]
  by_cases hqp : q = p
  · simp [hqp, eq_comm]
  · simp [hqp, get?_eq_some_iff]

/-- The loader with only the records that pass `f`. -/
def retain (l : Loader) (f : Path × Definition → Bool) : Loader :=
  { l with
    definitions := l.definitions.filter f
    distinct := nodup_map_fst_filter l.distinct f }

/-- Keeping some records keeps the record of a path if it passes, and drops it otherwise. -/
theorem get?_retain (f : Path × Definition → Bool) :
    (l.retain f).get? q = (l.get? q).filter fun e => f (q, e) := by
  apply get?_of_mem_iff
  intro e
  rw [retain, List.mem_filter, Option.filter_eq_some_iff, get?_eq_some_iff]

end Loader

/-! ## The files a rescan reads -/

namespace FileTree

variable {t : FileTree}

/-- A child of a directory is the directory's path and its own name. -/
theorem eq_of_child {d p : Path} (hlen : p.length = d.length + 1) (hpre : d.isPrefixOf p = true) :
    p = d ++ [p.name] := by
  obtain ⟨r, rfl⟩ := List.isPrefixOf_iff_prefix.1 hpre
  rw [List.length_append] at hlen
  obtain ⟨n, rfl⟩ := List.length_eq_one_iff.1 (by omega : r.length = 1)
  simp [Path.name]

/-- The names in a directory are distinct. -/
theorem children_nodup (t : FileTree) (d : Path) : (t.children d).Nodup := by
  unfold children
  rw [(perm_sortBy _ _).nodup_iff]
  have hfun : (fun e : Path × Entry =>
      if e.1.length == d.length + 1 && d.isPrefixOf e.1 then some e.1.name else none) =
      (fun p : Path => if p.length == d.length + 1 && d.isPrefixOf p then some p.name else none) ∘
        Prod.fst := rfl
  simp only
  rw [hfun, ← List.filterMap_map]
  refine List.Nodup.filterMap (fun p p' n hp hp' => ?_) t.distinct
  simp only [Bool.and_eq_true, beq_iff_eq, Option.mem_def, Option.ite_none_right_eq_some,
    Option.some.injEq] at hp hp'
  rw [eq_of_child hp.1.1 hp.1.2, eq_of_child hp'.1.1 hp'.1.2, hp.2, hp'.2]

/-- A tree whose directory `dir` holds one file. -/
def oneFile (dir : Path) (n : String) (b : List UInt8) : FileTree :=
  { entries := [(dir, .dir), (dir ++ [n], .file b)]
    distinct := List.nodup_cons.2 ⟨by simp, List.nodup_cons.2 ⟨List.not_mem_nil, List.nodup_nil⟩⟩ }

end FileTree

namespace Loader

variable {t : FileTree} {l : Loader} {q : Path} {d : Definition}

/-- The files a rescan lists at one name of a directory: those below it if it is a directory
that is not hidden, none if it is a hidden one, and the path itself otherwise. -/
def childFiles (t : FileTree) (k : Nat) (d : Path) (n : String) : List Path :=
  if t.isDir (d ++ [n]) then (if (d ++ [n]).isHidden then [] else walk t k (d ++ [n]))
  else [d ++ [n]]

theorem walk_succ (t : FileTree) (k : Nat) (d : Path) :
    walk t (k + 1) d = if t.listable d then (t.children d).flatMap (childFiles t k d) else [] := by
  rw [walk]
  cases t.listable d <;> rfl

/-- A file listed at a name of a directory is the path of that name, which is no directory, or
is listed one level down. -/
theorem mem_childFiles {k : Nat} {d q : Path} {n : String} (h : q ∈ childFiles t k d n) :
    q = d ++ [n] ∧ t.isDir (d ++ [n]) = false ∨ q ∈ walk t k (d ++ [n]) := by
  unfold childFiles at h
  split at h
  · split at h
    · simp at h
    · exact .inr h
  · rename_i hdir
    exact .inl ⟨List.mem_singleton.1 h, by simpa using hdir⟩

/-- Every file listed under a directory lies strictly below it. -/
theorem walk_below {k : Nat} {d q : Path} (h : q ∈ walk t k d) : ∃ n r, q = d ++ n :: r := by
  induction k generalizing d with
  | zero => simp [walk] at h
  | succ k ih =>
    rw [walk_succ] at h
    split at h
    · obtain ⟨n, -, hq⟩ := List.mem_flatMap.1 h
      rcases mem_childFiles hq with ⟨rfl, -⟩ | hq
      · exact ⟨n, [], rfl⟩
      · obtain ⟨m, r, rfl⟩ := ih hq
        exact ⟨n, m :: r, by simp⟩
    · simp at h

/-- No file is listed twice. -/
theorem walk_nodup (t : FileTree) (k : Nat) (d : Path) : (walk t k d).Nodup := by
  induction k generalizing d with
  | zero => simp [walk]
  | succ k ih =>
    rw [walk_succ]
    split
    · rw [List.nodup_flatMap]
      refine ⟨fun n _ => ?_, (t.children_nodup d).imp fun {a b} hab => ?_⟩
      · unfold childFiles
        split
        · split
          · exact List.nodup_nil
          · exact ih _
        · exact List.nodup_cons.2 ⟨List.not_mem_nil, List.nodup_nil⟩
      · -- the files at two names of a directory start with those names
        have hunder : ∀ n q, q ∈ childFiles t k d n → ∃ r, q = d ++ n :: r := by
          intro n q hq
          rcases mem_childFiles hq with ⟨rfl, -⟩ | hq
          · exact ⟨[], by simp⟩
          · obtain ⟨m, r, rfl⟩ := walk_below hq
            exact ⟨m :: r, by simp⟩
        intro q hqa hqb
        obtain ⟨r, rfl⟩ := hunder a q hqa
        obtain ⟨r', hr'⟩ := hunder b _ hqb
        simp only [List.append_cancel_left_eq, List.cons.injEq] at hr'
        exact hab hr'.1
    · exact List.nodup_nil

/-- Every directory from `d` down to a file listed under it can be listed. -/
theorem listable_of_mem_walk {k : Nat} {d q u : Path} (h : q ∈ walk t k d)
    (hdu : u.isUnder d = true) (huq : q.isUnder u = true) (hne : u ≠ q) : t.listable u = true := by
  induction k generalizing d with
  | zero => simp [walk] at h
  | succ k ih =>
    rw [walk_succ] at h
    split at h
    · rename_i hd
      obtain ⟨n, -, hq⟩ := List.mem_flatMap.1 h
      obtain ⟨r, rfl⟩ := Path.isUnder_iff.1 hdu
      cases r with
      | nil => simpa using hd
      | cons m r =>
        -- `u` lies below `d`, at the name that `q` is listed at
        obtain ⟨s, rfl⟩ := Path.isUnder_iff.1 huq
        rcases mem_childFiles hq with ⟨hq, -⟩ | hq
        · simp only [List.append_assoc, List.cons_append, List.append_cancel_left_eq,
            List.cons.injEq, List.append_eq_nil_iff] at hq
          obtain ⟨-, -, rfl⟩ := hq
          exact absurd (List.append_nil _).symm hne
        · obtain ⟨x, y, hxy⟩ := walk_below hq
          simp only [List.append_assoc, List.cons_append, List.append_cancel_left_eq,
            List.cons.injEq] at hxy
          obtain ⟨rfl, -⟩ := hxy
          exact ih hq (Path.isUnder_iff.2 ⟨r, by simp⟩)
    · simp at h

/-- The files a rescan reads: those under the directory, hidden directories left out. -/
def files (l : Loader) (t : FileTree) : List Path :=
  if t.isDir l.dir then walk t (t.entries.length + 1) l.dir else []

theorem scan_eq (l : Loader) (t : FileTree) : l.scan t = (Path.sort (l.files t)).map (visit t) :=
  rfl

theorem files_nodup (l : Loader) (t : FileTree) : (Path.sort (l.files t)).Nodup := by
  rw [Path.sort, (perm_sortBy _ _).nodup_iff, files]
  split
  · exact walk_nodup t _ _
  · exact List.nodup_nil

/-- A rescan reads no file below a directory, its own or one under it, that cannot be listed. -/
theorem not_mem_files_of_unlistable {u : Path} (hu : t.listable u = false)
    (hdu : u.isUnder l.dir = true) (huq : q.isUnder u = true) (hne : u ≠ q) : q ∉ l.files t := by
  intro hq
  unfold files at hq
  split at hq
  · exact absurd (listable_of_mem_walk hq hdu huq hne) (by simp [hu])
  · simp at hq

@[simp] theorem visit_path (t : FileTree) (p : Path) : (visit t p).1.path = p := by
  unfold visit
  split
  · rfl
  · split
    · rfl
    · split <;> rfl

theorem visit_of_hidden {p : Path} (h : p.isHidden = true) :
    visit t p = (⟨p, .skipped "dotfile"⟩, none) := by
  rw [visit, if_pos h]

theorem visit_of_not_yaml {p : Path} (hh : p.isHidden = false) (hy : p.isYaml = false) :
    visit t p = (⟨p, .skipped "not a YAML file"⟩, none) := by
  rw [visit, if_neg (by simp [hh]), if_pos (by simp [hy])]

theorem visit_of_ok {p : Path} {k : ObjectKey} (hh : p.isHidden = false) (hy : p.isYaml = true)
    (hdef : t.definition p = .ok (k, d)) : visit t p = (⟨p, .loaded k⟩, some d) := by
  rw [visit, if_neg (by simp [hh]), if_neg (by simp [hy]), hdef]

theorem visit_of_error {p : Path} {e : LoadFailure} (hh : p.isHidden = false)
    (hy : p.isYaml = true) (hdef : t.definition p = .error e) :
    visit t p = (⟨p, .failed e⟩, none) := by
  rw [visit, if_neg (by simp [hh]), if_neg (by simp [hy]), hdef]

/-- What a rescan does with one file it read: a loaded definition is recorded, bumped against
the previous record. -/
def recordRow (l : Loader) (row : LoadRow × Option Definition) : Loader :=
  row.2.elim l fun d => l.record row.1.path ((l.get? row.1.path).elim d (·.bump d))

theorem get?_recordRow_of_ne {row : LoadRow × Option Definition}
    (hq : row.1.path ≠ q) : (l.recordRow row).get? q = l.get? q := by
  obtain ⟨r, _ | d⟩ := row
  · rfl
  · simp only [recordRow, Option.elim_some]
    rw [get?_record, if_neg (Ne.symm hq)]

/-- Rows that load nothing at a path leave its record alone. -/
theorem get?_foldl_recordRow_of_none {rows : List (LoadRow × Option Definition)}
    (h : ∀ row ∈ rows, row.1.path = q → row.2 = none) :
    (rows.foldl recordRow l).get? q = l.get? q := by
  induction rows generalizing l with
  | nil => rfl
  | cons row rows ih =>
    rw [List.foldl_cons, ih fun r hr => h r (.tail _ hr)]
    by_cases hq : row.1.path = q
    · have hnone : row.2 = none := h row (.head _) hq
      obtain ⟨r, o⟩ := row
      subst hnone
      rfl
    · exact get?_recordRow_of_ne hq

/-- The one row that loads a definition at a path records it, bumped against the record. -/
theorem get?_foldl_recordRow_of_mem {rows : List (LoadRow × Option Definition)}
    (hn : (rows.map (·.1.path)).Nodup) {row : LoadRow} (hrow : (row, some d) ∈ rows) :
    (rows.foldl recordRow l).get? row.path = some ((l.get? row.path).elim d (·.bump d)) := by
  induction rows generalizing l with
  | nil => cases hrow
  | cons r rows ih =>
    rw [List.map_cons, List.nodup_cons] at hn
    rw [List.foldl_cons]
    rcases List.mem_cons.1 hrow with rfl | hrow
    · -- the row itself: no later row has its path
      have hlater : ∀ r ∈ rows, r.1.path = row.path → r.2 = none := fun r hr hp =>
        absurd (hp ▸ List.mem_map_of_mem hr) hn.1
      rw [get?_foldl_recordRow_of_none hlater]
      simp only [recordRow, Option.elim_some]
      rw [get?_record, if_pos rfl]
    · have hne : r.1.path ≠ row.path := fun hp =>
        hn.1 (hp ▸ List.mem_map_of_mem (f := fun r : LoadRow × Option Definition => r.1.path) hrow)
      rw [ih hn.2 hrow, get?_recordRow_of_ne hne]

/-- The paths a rescan keeps records for: every file it read that it did not skip. -/
def keptPaths (l : Loader) (t : FileTree) : List Path :=
  ((l.scan t).filter fun row => !(row.1.status matches .skipped _)).map (·.1.path)

/-- A rescan records each loaded definition in turn, then keeps the records of the kept paths. -/
theorem loadAll_snd (l : Loader) (t : FileTree) :
    (l.loadAll t).2 = ((l.scan t).foldl recordRow l).retain fun e => (l.keptPaths t).contains e.1 := by
  unfold loadAll retain
  -- the records and the directory agree; the proof that the paths are distinct follows
  ext1 <;> dsimp only <;>
    rw [List.foldl_ext _ recordRow l (fun l row _ => by obtain ⟨r, _ | d⟩ := row <;> rfl)]
  rfl

/-- A rescan keeps the records of exactly the listed YAML files that are not hidden. -/
theorem mem_keptPaths :
    q ∈ l.keptPaths t ↔ q ∈ l.files t ∧ q.isHidden = false ∧ q.isYaml = true := by
  have hsort : ∀ p, p ∈ Path.sort (l.files t) ↔ p ∈ l.files t := fun p =>
    (perm_sortBy _ _).mem_iff
  simp only [keptPaths, List.mem_map, List.mem_filter, scan_eq]
  constructor
  · rintro ⟨_, ⟨⟨p, hp, rfl⟩, hkeep⟩, rfl⟩
    rw [visit_path]
    refine ⟨(hsort p).1 hp, ?_⟩
    -- a kept row is one that was read: neither a dotfile nor another kind of file
    cases hh : p.isHidden
    · cases hy : p.isYaml
      · rw [visit_of_not_yaml hh hy] at hkeep
        simp at hkeep
      · exact ⟨rfl, rfl⟩
    · rw [visit_of_hidden hh] at hkeep
      simp at hkeep
  · rintro ⟨hq, hh, hy⟩
    refine ⟨visit t q, ⟨⟨q, (hsort q).2 hq, rfl⟩, ?_⟩, visit_path t q⟩
    cases hdef : t.definition q with
    | error e => rw [visit_of_error hh hy hdef]; rfl
    | ok kd => rw [visit_of_ok hh hy hdef]; rfl

theorem loadAll_get? :
    (l.loadAll t).2.get? q = (((l.scan t).foldl recordRow l).get? q).filter
      fun _ => decide (q ∈ l.files t) && !q.isHidden && q.isYaml := by
  rw [loadAll_snd, get?_retain]
  congr 1
  funext e
  rw [Bool.eq_iff_iff, List.contains_iff_mem, mem_keptPaths]
  simp [and_assoc]

/-- A rescan records a listed YAML file that loads, bumped against the previous record. -/
theorem loadAll_get?_of_ok {k : ObjectKey}
    (hq : q ∈ l.files t) (hh : q.isHidden = false) (hy : q.isYaml = true)
    (hdef : t.definition q = .ok (k, d)) :
    (l.loadAll t).2.get? q = some ((l.get? q).elim d (·.bump d)) := by
  have hrows : ((l.scan t).map (·.1.path)).Nodup := by
    rw [scan_eq, List.map_map]
    simpa [Function.comp_def] using files_nodup l t
  have hrow : (⟨q, .loaded k⟩, some d) ∈ l.scan t := by
    rw [scan_eq, ← visit_of_ok hh hy hdef]
    exact List.mem_map_of_mem ((perm_sortBy _ _).mem_iff.2 hq)
  rw [loadAll_get?, get?_foldl_recordRow_of_mem hrows hrow]
  simp [hq, hh, hy]

/-- A rescan keeps the previous record of a listed YAML file that fails to load. -/
theorem loadAll_get?_of_error {e : LoadFailure}
    (hq : q ∈ l.files t) (hh : q.isHidden = false) (hy : q.isYaml = true)
    (hdef : t.definition q = .error e) : (l.loadAll t).2.get? q = l.get? q := by
  have hnone : ∀ row ∈ l.scan t, row.1.path = q → row.2 = none := by
    rw [scan_eq]
    intro row hrow hp
    obtain ⟨p, -, rfl⟩ := List.mem_map.1 hrow
    rw [visit_path] at hp
    subst hp
    rw [visit_of_error hh hy hdef]
  rw [loadAll_get?, get?_foldl_recordRow_of_none hnone]
  cases l.get? q <;> simp [hq, hh, hy]

/-- A rescan records nothing for a path it does not read. -/
theorem loadAll_get?_of_unread (hq : q ∉ l.files t ∨ q.isHidden = true ∨ q.isYaml = false) :
    (l.loadAll t).2.get? q = none := by
  rw [loadAll_get?]
  cases (((l.scan t).foldl recordRow l).get? q) with
  | none => rfl
  | some e => rcases hq with hq | hq | hq <;> simp [hq]

/-- What a rescan leaves recorded for a path, for every loader and tree: a listed YAML file that
is not hidden is recorded with the definition it loads, bumped against the previous record, or
keeps the previous record when it fails to load; every other path is forgotten. -/
theorem loadAll_get?_eq (l : Loader) (t : FileTree) (q : Path) :
    (l.loadAll t).2.get? q =
      if q ∈ l.files t ∧ q.isHidden = false ∧ q.isYaml = true then
        match t.definition q with
        | .ok (_, d) => some ((l.get? q).elim d (·.bump d))
        | .error _ => l.get? q
      else none := by
  split
  next hread =>
    obtain ⟨hq, hh, hy⟩ := hread
    split
    next hdef => exact loadAll_get?_of_ok hq hh hy hdef
    next hdef => exact loadAll_get?_of_error hq hh hy hdef
  next hread =>
    apply loadAll_get?_of_unread
    simpa only [not_and_or, Bool.not_eq_false, Bool.not_eq_true] using hread

/-- A rescan forgets every record below a directory, the loader's own or one under it, that
cannot be listed, though the file may still be there and load. -/
theorem loadAll_forgets_below_unlistable {u : Path} (hu : t.get? u = some (.dir false))
    (hdu : u.isUnder l.dir = true) (huq : q.isUnder u = true) (hne : u ≠ q) :
    (l.loadAll t).2.get? q = none := by
  have hlist : t.listable u = false := by simp [FileTree.listable, hu]
  exact loadAll_get?_of_unread (.inl (not_mem_files_of_unlistable hlist hdu huq hne))

example :
    let l : Loader :=
      { dir := ["rules"]
        definitions := [(["rules", "sub", "a.yaml"], (Definition.build "billing" "plan").withKind "Pod")] }
    let t : FileTree := { entries := [(["rules"], .dir), (["rules", "sub"], .dir false),
      (["rules", "sub", "a.yaml"], .file [])] }
    (l.loadAll t).2.get? ["rules", "sub", "a.yaml"] = none := by
  decide +kernel

/-- A hot-reload read of a path either leaves the loader as it is or records for the path the
definition read from it, bumped against the previous record. -/
theorem upsert_fst (l : Loader) (t : FileTree) (r : Registry) (p : Path) (now : Nat) :
    (l.upsert t r p now).1 = l ∨ ∃ k f, t.definition p = .ok (k, f) ∧
      (l.upsert t r p now).1 = l.record p ((l.get? p).elim f (·.bump f)) := by
  unfold upsert
  split
  · exact .inl rfl
  · rename_i key parsed hdef
    dsimp only
    split
    · exact .inl rfl
    · -- the write was admitted: the read is recorded unless the old rule cannot be retracted
      repeat' split
      all_goals first | exact .inl rfl | exact .inr ⟨key, parsed, hdef, rfl⟩

end Loader

/-! ## Generations along re-reads -/

namespace Definition

/-- A recorded definition `d'` follows `d` when it is `d` kept or `d` bumped by a re-read. -/
def Follows (d d' : Definition) : Prop := d' = d ∨ ∃ f, d' = d.bump f

/-- Below the largest generation, a following record never has a lower generation, and has a
higher one when its spec differs. -/
theorem Follows.generation {d d' : Definition} (h : d.Follows d')
    (hlo : minGeneration ≤ d.generation) (hhi : d.generation < maxGeneration) :
    d.generation ≤ d'.generation ∧ (d'.spec ≠ d.spec → d.generation < d'.generation) := by
  rcases h with rfl | ⟨f, rfl⟩
  · exact ⟨le_refl _, fun h => absurd rfl h⟩
  · rw [bump_spec]
    exact bump_generation_lt hlo hhi

end Definition

namespace Loader

variable {t : FileTree} {l : Loader} {q : Path} {d d' : Definition}

/-- A call that re-reads rule files: a rescan of a tree, or the hot-reload read of one path of a
tree written to a registry at a time. -/
inductive Reread
  | rescan (t : FileTree)
  | upsert (t : FileTree) (r : Registry) (p : Path) (now : Nat)

/-- The loader after a re-read. -/
def Reread.apply : Reread → Loader → Loader
  | .rescan t, l => (l.loadAll t).2
  | .upsert t r p now, l => (l.upsert t r p now).1

/-- The loader after re-reads in order. -/
def rereadAll (l : Loader) (rs : List Reread) : Loader := rs.foldl (fun l s => s.apply l) l

theorem rereadAll_rescan (t : FileTree) : l.rereadAll [.rescan t] = (l.loadAll t).2 := rfl

theorem rereadAll_rescan_rescan (t t' : FileTree) :
    l.rereadAll [.rescan t, .rescan t'] = ((l.rereadAll [.rescan t]).loadAll t').2 := rfl

/-- The record `d'` of a path is the record `d` kept, or bumped by the definition read there. -/
def Rereads (t : FileTree) (q : Path) (d d' : Definition) : Prop :=
  d' = d ∨ ∃ k f, t.definition q = .ok (k, f) ∧ d' = d.bump f

theorem Rereads.follows {d d' : Definition} (h : Rereads t q d d') : d.Follows d' := by
  rcases h with h | ⟨-, f, -, h⟩
  · exact .inl h
  · exact .inr ⟨f, h⟩

/-- A re-read whose file keeps the recorded spec and carries no newer generation keeps the
recorded generation. -/
theorem Rereads.generation_stays {d d' : Definition} (h : Rereads t q d d')
    (hsame : ∀ k f, t.definition q = .ok (k, f) → f.spec = d.spec ∧ f.generation ≤ d.generation) :
    d'.generation = d.generation := by
  rcases h with rfl | ⟨k, f, hdef, rfl⟩
  · rfl
  · obtain ⟨hs, hg⟩ := hsame k f hdef
    exact Definition.bump_generation_of_same hs hg

/-- What a rescan records for a path that stays recorded re-reads the previous record. -/
theorem loadAll_rereads (hbefore : l.get? q = some d)
    (hafter : (l.loadAll t).2.get? q = some d') : Rereads t q d d' := by
  rw [loadAll_get?_eq, hbefore] at hafter
  split at hafter
  · split at hafter
    next k f hdef => exact .inr ⟨k, f, hdef, (Option.some.inj hafter).symm⟩
    next => exact .inl (Option.some.inj hafter).symm
  · cases hafter

/-- What a hot-reload read records for a path that stays recorded re-reads the previous
record. -/
theorem upsert_rereads (r : Registry) (p : Path) (now : Nat)
    (hbefore : l.get? q = some d) (hafter : (l.upsert t r p now).1.get? q = some d') :
    Rereads t q d d' := by
  rcases upsert_fst l t r p now with h | ⟨k, f, hdef, h⟩ <;> rw [h] at hafter
  · rw [hbefore, Option.some.injEq] at hafter
    exact .inl hafter.symm
  · rw [get?_record] at hafter
    split at hafter
    · rename_i hqp
      subst hqp
      rw [hbefore, Option.elim_some, Option.some.injEq] at hafter
      exact .inr ⟨k, f, hdef, hafter.symm⟩
    · rw [hbefore, Option.some.injEq] at hafter
      exact .inl hafter.symm

/-- The tree a re-read reads. -/
def Reread.tree : Reread → FileTree
  | .rescan t => t
  | .upsert t .. => t

theorem Reread.rereads {s : Reread} (hbefore : l.get? q = some d)
    (hafter : (s.apply l).get? q = some d') : Rereads s.tree q d d' := by
  cases s with
  | rescan t => exact loadAll_rereads hbefore hafter
  | upsert t r p now => exact upsert_rereads r p now hbefore hafter

/-- Along any run of rescans and hot-reload reads during which a path stays recorded with a
generation below the largest, its recorded generation never decreases, and it increases when
the recorded spec changes. -/
theorem rereadAll_generation {rs : List Reread} (hstart : l.get? q = some d) (hend : (l.rereadAll rs).get? q = some d')
    (hkept : ∀ k < rs.length, ∃ e, (l.rereadAll (rs.take k)).get? q = some e ∧
      Definition.minGeneration ≤ e.generation ∧ e.generation < Definition.maxGeneration) :
    d.generation ≤ d'.generation ∧ (d'.spec ≠ d.spec → d.generation < d'.generation) := by
  induction rs generalizing l d with
  | nil =>
    rw [rereadAll, List.foldl_nil, hstart, Option.some.injEq] at hend
    subst hend
    exact ⟨le_refl _, fun h => absurd rfl h⟩
  | cons s rs ih =>
    -- the first re-read moves the record from `d` to `d₁`, the rest from `d₁` to `d'`
    obtain ⟨e, he, hlo, hhi⟩ := hkept 0 (by simp)
    rw [List.take_zero, rereadAll, List.foldl_nil, hstart, Option.some.injEq] at he
    subst he
    obtain ⟨d₁, h₁⟩ : ∃ d₁, (s.apply l).get? q = some d₁ := by
      cases rs with
      | nil => exact ⟨d', hend⟩
      | cons _ _ =>
        obtain ⟨e, he, -⟩ := hkept 1 (by simp)
        exact ⟨e, he⟩
    have hstep := (Reread.rereads hstart h₁).follows.generation hlo hhi
    have hrest := ih h₁ hend fun k hk => hkept (k + 1) (by simp [hk])
    refine ⟨le_trans hstep.1 hrest.1, fun hspec => ?_⟩
    by_cases hs₁ : d₁.spec = d.spec
    · exact lt_of_le_of_lt hstep.1 (hrest.2 (hs₁ ▸ hspec))
    · exact lt_of_lt_of_le (hstep.2 hs₁) hrest.1

/-- From the largest generation, a rescan that reads another spec with no newer generation
records the smallest generation: the next generation wraps. -/
theorem loadAll_wraps {k : ObjectKey} {f : Definition}
    (hq : q ∈ l.files t) (hh : q.isHidden = false) (hy : q.isYaml = true)
    (hdef : t.definition q = .ok (k, f)) (hbefore : l.get? q = some d)
    (hmax : d.generation = Definition.maxGeneration) (hs : f.spec ≠ d.spec)
    (hg : f.generation ≤ d.generation) :
    (l.loadAll t).2.get? q = some (d.bump f) ∧
      (d.bump f).generation = Definition.minGeneration := by
  rw [loadAll_get?_of_ok hq hh hy hdef, hbefore]
  exact ⟨rfl, Definition.bump_wraps hmax hs hg⟩

/-- A rescan of a directory holding one file reads that file. -/
theorem files_oneFile {dir : Path} (hdir : l.dir = dir) (n : String) (b : List UInt8) :
    l.files (FileTree.oneFile dir n b) = [dir ++ [n]] := by
  subst hdir
  have hchildren : (FileTree.oneFile l.dir n b).children l.dir = [n] := by
    simp [FileTree.oneFile, FileTree.children, Path.name, sortBy, insertBy]
  have hdir : (FileTree.oneFile l.dir n b).isDir l.dir = true := by
    cases l.dir <;> simp [FileTree.oneFile, FileTree.isDir, FileTree.get?]
  have hlist : (FileTree.oneFile l.dir n b).listable l.dir = true := by
    cases l.dir <;> simp [FileTree.oneFile, FileTree.listable, FileTree.get?]
  have hfile : (FileTree.oneFile l.dir n b).isDir (l.dir ++ [n]) = false := by
    simp [FileTree.oneFile, FileTree.isDir, FileTree.get?]
  rw [files, if_pos hdir, show (FileTree.oneFile l.dir n b).entries.length + 1 = 2 + 1 from rfl, walk_succ,
    if_pos hlist, hchildren]
  simp [childFiles, hfile]

theorem dir_recordRow (l : Loader) (row : LoadRow × Option Definition) :
    (l.recordRow row).dir = l.dir := by
  obtain ⟨r, _ | d⟩ := row <;> rfl

/-- A rescan keeps the loader's directory. -/
theorem loadAll_dir (l : Loader) (t : FileTree) : (l.loadAll t).2.dir = l.dir := by
  rw [loadAll_snd]
  show ((l.scan t).foldl recordRow l).dir = l.dir
  generalize l.scan t = rows
  induction rows generalizing l with
  | nil => rfl
  | cons row rows ih => rw [List.foldl_cons, ih, dir_recordRow]

/-- A file recorded at generation 1 and edited without a newer generation, then rescanned twice:
the first rescan records the edit at generation 2, and the second keeps it there. -/
theorem rereadAll_generation_of_edit :
    let recorded : Definition :=
      { metadata := { ns := some "billing", name := "plan", generation := 1 }
        spec := { filters := [{ namespaces := some ["foo"] }] } }
    let edited : Definition := { recorded with spec.filters := [{ namespaces := some ["bar"] }] }
    let t : FileTree := { entries := [(["rules"], .dir),
      (["rules", "a.yaml"], .file ("metadata:\n  namespace: billing\n  name: plan\n  generation: 1\n" ++
        "spec:\n  resourceFilters:\n    - namespace:\n        names: [bar]\n").toUTF8.toList)] }
    let l : Loader := { dir := ["rules"], definitions := [(["rules", "a.yaml"], recorded)] }
    (l.rereadAll [.rescan t, .rescan t]).get? ["rules", "a.yaml"] = some (edited.withGeneration 2) ∧
      recorded.generation ≤ (edited.withGeneration 2).generation ∧
      ((edited.withGeneration 2).spec ≠ recorded.spec →
        recorded.generation < (edited.withGeneration 2).generation) := by
  intro recorded edited t l
  have hdef : t.definition ["rules", "a.yaml"] = .ok (.inNamespace "billing" "plan", edited) :=
    Except.eq_ok_of_toOption (by decide +kernel)
  have hh : Path.isHidden ["rules", "a.yaml"] = false := by decide +kernel
  have hy : Path.isYaml ["rules", "a.yaml"] = true := by decide +kernel
  -- the edit moves the generation one on; read again, the same spec keeps it
  have hbump : recorded.bump edited = edited.withGeneration 2 := by decide +kernel
  have hkeep : (edited.withGeneration 2).bump edited = edited.withGeneration 2 := by decide +kernel
  have hfiles : l.files t = [["rules", "a.yaml"]] := files_oneFile rfl "a.yaml" _
  have hfiles₁ : (l.rereadAll [.rescan t]).files t = [["rules", "a.yaml"]] :=
    files_oneFile (loadAll_dir l t) "a.yaml" _
  have h₁ : (l.rereadAll [.rescan t]).get? ["rules", "a.yaml"] = some (edited.withGeneration 2) := by
    rw [rereadAll_rescan, loadAll_get?_of_ok (by simp [hfiles]) hh hy hdef]
    rw [show l.get? ["rules", "a.yaml"] = some recorded from rfl, Option.elim_some, hbump]
  have h₂ : (l.rereadAll [.rescan t, .rescan t]).get? ["rules", "a.yaml"] =
      some (edited.withGeneration 2) := by
    rw [rereadAll_rescan_rescan, loadAll_get?_of_ok (by simp [hfiles₁]) hh hy hdef, h₁,
      Option.elim_some, hkeep]
  have hkept : ∀ k < [Reread.rescan t, .rescan t].length, ∃ e,
      (l.rereadAll ([Reread.rescan t, .rescan t].take k)).get? ["rules", "a.yaml"] = some e ∧
        Definition.minGeneration ≤ e.generation ∧ e.generation < Definition.maxGeneration := by
    intro k hk
    match k, hk with
    | 0, _ => exact ⟨recorded, rfl, by decide, by decide⟩
    | 1, _ => exact ⟨edited.withGeneration 2, h₁, by decide, by decide⟩
  exact ⟨h₂, rereadAll_generation rfl h₂ hkept⟩

/-- A file recorded at the largest generation and edited without a newer one is recorded at the
smallest on the next rescan. -/
theorem rescan_wraps_largest_generation :
    let recorded : Definition :=
      { metadata := { ns := some "billing", name := "plan", uid := "uid-plan",
                      generation := 9223372036854775807 }
        spec :=
          { kind := some "Pod"
            filters := [{ labels := some { matchLabels := ⟨[("app", "foo")]⟩ } }] } }
    let t : FileTree := { entries := [(["rules"], .dir),
      (["rules", "a.yaml"], .file ("apiVersion: marketplace.redhat.com/v1beta1\n" ++
        "kind: MeterDefinition\nmetadata:\n  namespace: billing\n  name: plan\n" ++
        "  uid: uid-plan\n  generation: 9223372036854775807\nspec:\n  kind: Pod\n" ++
        "  resourceFilters:\n    - label:\n        labelSelector:\n          matchLabels:\n" ++
        "            app: bar\n").toUTF8.toList)] }
    let l : Loader := { dir := ["rules"], definitions := [(["rules", "a.yaml"], recorded)] }
    recorded.generation = Definition.maxGeneration ∧
      ((l.rereadAll [.rescan t]).get? ["rules", "a.yaml"]).map (·.generation) =
        some Definition.minGeneration := by
  intro recorded t l
  let edited : Definition :=
    { recorded with spec.filters := [{ labels := some { matchLabels := ⟨[("app", "bar")]⟩ } }] }
  have hdef : t.definition ["rules", "a.yaml"] = .ok (.inNamespace "billing" "plan", edited) :=
    Except.eq_ok_of_toOption (by decide +kernel)
  have hfiles : l.files t = [["rules", "a.yaml"]] := files_oneFile rfl "a.yaml" _
  have hyaml : Path.isYaml ["rules", "a.yaml"] = true := by decide +kernel
  have hbefore : l.get? ["rules", "a.yaml"] = some recorded := rfl
  have hwrap := loadAll_wraps (by simp [hfiles]) (by decide +kernel) hyaml hdef hbefore rfl
    (show edited.spec ≠ recorded.spec by decide) (le_refl _)
  refine ⟨rfl, ?_⟩
  show (((l.loadAll t).2.get? ["rules", "a.yaml"]).map (·.generation)) = _
  rw [hwrap.1, Option.map_some, hwrap.2]
end Loader

end MeterMatch
