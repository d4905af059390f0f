import MeterMatch.Object

/-! # Written keys

A key is written `ns/name`, or as the bare name when it has no namespace (`ObjectKey.display`),
and read back by cutting the text at every slash (`ObjectKey.parse?`): one non-empty piece is a
name, two are a namespace and a name, anything else is refused.

Reading and writing are inverse on the keys whose parts are non-empty and hold no slash
(`ObjectKey.Clean`): a text reads as a key exactly when it is the written form of a clean key
(`ObjectKey.clean_of_parse?`, `ObjectKey.parse?_display`, together `ObjectKey.parse?_eq_some_iff`). So every text that reads as a key is that key's written form.
An object's key need not be clean, though: deriving it checks only that the name is not blank, so a
name or a namespace with a slash in it gives a key whose written form reads as another key, or as
none (`ObjectKey.written_keys_read_back`, `ObjectKey.slashed_name_reads_as_namespaced`).

* `splitOn_eq_singleton_iff`, `splitOn_eq_pair_iff`: when cutting a list at a separator gives one
  piece or two.
-/

namespace MeterMatch

/-! ## Cutting a list at a separator -/

section SplitOn

variable {α : Type} [BEq α] [LawfulBEq α] {c : α}

/-- A list cuts into one piece exactly when it holds no separator; the piece is the list. -/
theorem splitOn_eq_singleton_iff {l p : List α} : l.splitOn c = [p] ↔ l = p ∧ c ∉ p := by
  constructor
  · intro h
    by_cases hc : c ∈ l
    · -- a separator leaves a piece on either side of it
      obtain ⟨xs, as, rfl⟩ := List.append_of_mem hc
      rw [List.splitOn_append_cons_self] at h
      have hlen := congrArg List.length h
      have hxs := List.length_pos_iff.2 (List.splitOn_ne_nil c xs)
      have has := List.length_pos_iff.2 (List.splitOn_ne_nil c as)
      rw [List.length_append, List.length_singleton] at hlen
      omega
    · rw [List.splitOn_eq_singleton hc, List.singleton_inj] at h
      subst h
      exact ⟨rfl, hc⟩
  · rintro ⟨rfl, hc⟩
    exact List.splitOn_eq_singleton hc

/-- A list cuts into two pieces exactly when it is the two joined by its only separator. -/
theorem splitOn_eq_pair_iff {l a b : List α} :
    l.splitOn c = [a, b] ↔ l = a ++ c :: b ∧ c ∉ a ∧ c ∉ b := by
  constructor
  · intro h
    by_cases hc : c ∈ l
    · obtain ⟨xs, as, rfl⟩ := List.append_of_mem hc
      rw [List.splitOn_append_cons_self] at h
      -- each side of the separator gives at least one piece, so exactly one
      obtain ⟨x, xs', hx⟩ := List.exists_cons_of_ne_nil (List.splitOn_ne_nil c xs)
      rw [hx, List.cons_append, List.cons.injEq] at h
      obtain ⟨rfl, hrest⟩ := h
      rcases List.append_eq_singleton_iff.1 hrest with ⟨rfl, hb⟩ | ⟨-, hnil⟩
      · obtain ⟨rfl, ha⟩ := splitOn_eq_singleton_iff.1 hx
        obtain ⟨rfl, hb⟩ := splitOn_eq_singleton_iff.1 hb
        exact ⟨rfl, ha, hb⟩
      · exact absurd hnil (List.splitOn_ne_nil c as)
    · rw [List.splitOn_eq_singleton hc] at h
      simp at h
  · rintro ⟨rfl, ha, hb⟩
    rw [List.splitOn_append_cons_self_of_not_mem ha, List.splitOn_eq_singleton hb]

end SplitOn

namespace ObjectKey

/-! ## Clean keys -/

/-- A part of a written key that reads back: non-empty, with no slash. -/
def CleanPart (p : String) : Prop := p ≠ "" ∧ '/' ∉ p.toList

/-- A key whose written form reads back: its name, and its namespace if it has one, are clean
parts. -/
def Clean (k : ObjectKey) : Prop := CleanPart k.name ∧ ∀ ns, k.ns = some ns → CleanPart ns

@[simp] theorem cluster_name (name : String) : (cluster name).name = name := rfl

@[simp] theorem cluster_ns (name : String) : (cluster name).ns = none := rfl

@[simp] theorem inNamespace_name (ns name : String) : (inNamespace ns name).name = name := rfl

@[simp] theorem inNamespace_ns (ns name : String) : (inNamespace ns name).ns = some ns := rfl

@[simp] theorem display_cluster (name : String) : (cluster name).display = name := rfl

/-- The written form of a namespaced key, as characters. -/
theorem toList_display_inNamespace (ns name : String) :
    (inNamespace ns name).display.toList = ns.toList ++ '/' :: name.toList := by
  simp [display, inNamespace, String.toList_append, show "/".toList = ['/'] from rfl]

/-- The pieces of a text cut at its slashes. -/
theorem parse?_eq (raw : String) : parse? raw =
    match (raw.toList.splitOn '/').map String.ofList with
    | [name] => if name.isEmpty then none else some (cluster name)
    | [ns, name] => if ns.isEmpty || name.isEmpty then none else some (inNamespace ns name)
    | _ => none := rfl

theorem cleanPart_ofList {p : List Char} (hne : (String.ofList p).isEmpty = false)
    (hslash : '/' ∉ p) : CleanPart (String.ofList p) :=
  ⟨String.isEmpty_eq_false_iff.1 hne, by rwa [String.toList_ofList]⟩

/-- Every text that reads as a key is the written form of that key, and the key is clean. -/
theorem clean_of_parse? {raw : String} {k : ObjectKey} (h : parse? raw = some k) :
    k.Clean ∧ k.display = raw := by
  rw [parse?_eq] at h
  split at h
  · -- one piece: the whole text, with no slash in it
    rename_i name hpieces
    obtain ⟨p, hsplit, rfl⟩ := List.map_eq_singleton_iff.1 hpieces
    obtain ⟨hraw, hslash⟩ := splitOn_eq_singleton_iff.1 hsplit
    split at h
    · cases h
    · rename_i hne
      cases h
      refine ⟨⟨by simpa using cleanPart_ofList (by simpa using hne) hslash, nofun⟩, ?_⟩
      rw [display_cluster, ← hraw, String.ofList_toList]
  · -- two pieces: the text is their join by its only slash
    rename_i ns name hpieces
    obtain ⟨p, rest, hsplit, rfl, hrest⟩ := List.map_eq_cons_iff.1 hpieces
    obtain ⟨q, rfl, rfl⟩ := List.map_eq_singleton_iff.1 hrest
    obtain ⟨hraw, hp, hq⟩ := splitOn_eq_pair_iff.1 hsplit
    split at h
    · cases h
    · rename_i hne
      cases h
      simp only [Bool.or_eq_true, not_or, Bool.not_eq_true] at hne
      refine ⟨⟨by simpa using cleanPart_ofList hne.2 hq, ?_⟩, ?_⟩
      · rintro _ ⟨⟩
        exact cleanPart_ofList hne.1 hp
      · apply String.toList_injective
        rw [toList_display_inNamespace, String.toList_ofList, String.toList_ofList, hraw]
  · cases h

/-- The written form of a clean key reads back as the key. -/
theorem parse?_display {k : ObjectKey} (hk : k.Clean) : parse? k.display = some k := by
  obtain ⟨⟨hname, hname'⟩, hns⟩ := hk
  obtain ⟨ns, name⟩ := k
  cases ns with
  | none =>
    have hsplit : name.toList.splitOn '/' = [name.toList] := List.splitOn_eq_singleton hname'
    simp [parse?_eq, display, hsplit, String.ofList_toList, String.isEmpty_iff, hname, cluster]
  | some ns =>
    obtain ⟨hns, hns'⟩ := hns ns rfl
    have hsplit : (inNamespace ns name).display.toList.splitOn '/' = [ns.toList, name.toList] :=
      splitOn_eq_pair_iff.2 ⟨toList_display_inNamespace ns name, hns', hname'⟩
    simp only [inNamespace] at hsplit
    simp [parse?_eq, hsplit, String.ofList_toList, String.isEmpty_iff, hname, hns, inNamespace]

/-- A text reads as a key exactly when it is the written form of a clean key. -/
theorem parse?_eq_some_iff {raw : String} {k : ObjectKey} :
    parse? raw = some k ↔ k.Clean ∧ k.display = raw :=
  ⟨clean_of_parse?, fun ⟨hk, hraw⟩ => hraw ▸ parse?_display hk⟩

/-- Reading fails with the text, or gives what `parse?` gives. -/
theorem parse_eq_ok_iff {raw : String} {k : ObjectKey} : parse raw = .ok k ↔ parse? raw = some k := by
  unfold parse
  split <;> simp_all

end ObjectKey

namespace ObjectMeta

/-- An object's key has the object's name, which is not empty, and its namespace unless that is
missing or empty. -/
theorem key_eq_ok {m : ObjectMeta} {k : ObjectKey} (h : m.key = .ok k) :
    m.name ≠ "" ∧ k = ⟨m.ns.filter (!·.isEmpty), m.name⟩ := by
  unfold key at h
  split at h
  · cases h
  · rename_i hblank
    have hname : m.name ≠ "" := by
      rintro hempty
      exact hblank (by simp [hempty, Text.isBlankText])
    refine ⟨hname, ?_⟩
    split at h
    · rename_i ns hns
      split at h <;> cases h <;> simp_all [Option.filter_some, String.isEmpty_iff, ObjectKey.cluster,
        ObjectKey.inNamespace]
    · cases h
      simp_all [ObjectKey.cluster]

end ObjectMeta

namespace ObjectKey

/-- Every text that reads as a key is that key's written form; the written form of an object's key
reads back as that key exactly when neither the object's name nor its namespace holds a slash. -/
theorem written_keys_read_back :
    (∀ (raw : String) (k : ObjectKey), parse raw = .ok k → k.display = raw) ∧
    ∀ (m : ObjectMeta) (k : ObjectKey), m.key = .ok k →
      (parse k.display = .ok k ↔ '/' ∉ m.name.toList ∧ ∀ ns, m.ns = some ns → '/' ∉ ns.toList) := by
  refine ⟨fun raw k h => (parse?_eq_some_iff.1 (parse_eq_ok_iff.1 h)).2, fun m k hk => ?_⟩
  obtain ⟨hname, rfl⟩ := ObjectMeta.key_eq_ok hk
  rw [parse_eq_ok_iff, parse?_eq_some_iff]
  constructor
  · rintro ⟨⟨⟨-, hslash⟩, hns⟩, -⟩
    refine ⟨hslash, fun ns hm => ?_⟩
    cases hempty : ns.isEmpty
    · exact (hns ns (by simp [hm, Option.filter_some, hempty])).2
    · simp [String.isEmpty_iff.1 hempty]
  · rintro ⟨hslash, hns⟩
    refine ⟨⟨⟨hname, hslash⟩, fun ns h => ?_⟩, rfl⟩
    obtain ⟨hm, hne⟩ := Option.filter_eq_some_iff.1 h
    exact ⟨String.isEmpty_eq_false_iff.1 (by simpa using hne), hns ns hm⟩

/-- An object named `a/b` without a namespace has the cluster key `a/b`, whose written form reads
back as the name `b` in the namespace `a`. -/
theorem slashed_name_reads_as_namespaced :
    ({ name := "a/b" } : ObjectMeta).key = .ok (cluster "a/b") ∧
      parse (cluster "a/b").display = .ok (inNamespace "a" "b") ∧
      inNamespace "a" "b" ≠ cluster "a/b" :=
  ⟨rfl, rfl, nofun⟩

end ObjectKey

end MeterMatch
