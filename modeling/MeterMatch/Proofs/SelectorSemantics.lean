import MeterMatch.Selector

/-! # What selectors accept

The compiler and the matcher of `Selector`, read as rules on the definition and on the object.

* `Requirement.WellFormed`, `Filter.WellFormed`: what a rule may carry. `Requirement.Faults` and
  `Filter.Faults`: why a filter is refused, the checks taken in order: no selector set, then the
  first bad requirement (its key before its values), then an owner selector with neither kind nor
  name. `firstFault_eq_none_iff` and `firstFault_eq_some_iff`: the first fault among the filters
  is that of the first filter that is not well formed.
* `Requirement.Holds`, `LabelSelector.Holds`, `Filter.Passes`: what the labels, and an object,
  must satisfy (`Requirement.admits_iff`, `LabelSelector.admits_iff`, `Filter.admits_iff`).
* `Definition.NeedsKind`, `Definition.Meters`: when a rule cannot judge an object without a kind,
  and when it meters an object.
* `Definition.compile_judges_by_filters`: a rule compiles exactly when it has filters and all of
  them are well formed, and otherwise fails with the first fault; its matcher fails on an object
  exactly when the object has no kind and the rule needs one, and otherwise says whether the rule
  meters the object.
-/

namespace MeterMatch

/-! ## Compiling -/

namespace Requirement

/-- A requirement a rule may carry: a non-empty key, with values for `In` and `NotIn` and none
for `Exists` and `DoesNotExist`. -/
def WellFormed (r : Requirement) : Prop :=
  r.key ≠ "" ∧ (r.op = .isIn ∨ r.op = .notIn → r.values ≠ []) ∧
    (r.op = .exists_ ∨ r.op = .doesNotExist → r.values = [])

/-- Why a requirement of filter `i` is refused; its key is checked before its values. -/
inductive Faults (i : Nat) (r : Requirement) : CompileError → Prop
  | emptyKey (key : r.key = "") : Faults i r (.emptyKey i)
  | needsValues (key : r.key ≠ "") (op : r.op = .isIn ∨ r.op = .notIn) (values : r.values = []) :
      Faults i r (.needsValues i r.op r.key)
  | forbidsValues (key : r.key ≠ "") (op : r.op = .exists_ ∨ r.op = .doesNotExist)
      (values : r.values ≠ []) : Faults i r (.forbidsValues i r.op r.key)

variable (i : Nat) (r : Requirement)

theorem fault?_eq_none_iff : r.fault? i = none ↔ r.WellFormed := by
  unfold fault? WellFormed
  by_cases hk : r.key = ""
  · simp [hk]
  · cases r.op <;> by_cases hv : r.values = [] <;> simp [hk, hv]

theorem fault?_eq_some_iff (e : CompileError) : r.fault? i = some e ↔ r.Faults i e := by
  unfold fault?
  by_cases hk : r.key = ""
  · rw [if_pos (String.isEmpty_iff.2 hk), Option.some.injEq]
    constructor
    · rintro rfl
      exact .emptyKey hk
    · rintro (_ | ⟨hk', -, -⟩ | ⟨hk', -, -⟩)
      · rfl
      · exact absurd hk hk'
      · exact absurd hk hk'
  · have hk' : r.key.isEmpty = false := by simpa using hk
    rw [hk', if_neg Bool.false_ne_true]
    constructor
    · intro h
      -- what is left: `In` and `NotIn` without values, `Exists` and `DoesNotExist` with values
      cases hop : r.op <;> rw [hop] at h <;> by_cases hv : r.values = [] <;> simp [hv] at h <;>
        subst h
      · exact hop ▸ .needsValues hk (.inl hop) hv
      · exact hop ▸ .needsValues hk (.inr hop) hv
      · exact hop ▸ .forbidsValues hk (.inl hop) hv
      · exact hop ▸ .forbidsValues hk (.inr hop) hv
    · rintro (h | ⟨-, hop, hv⟩ | ⟨-, hop, hv⟩)
      · exact absurd h hk
      · rcases hop with hop | hop <;> simp [hop, hv]
      · rcases hop with hop | hop <;> simp [hop, hv]

end Requirement

namespace Filter

/-- Whether a filter sets any selector; a kind counts as one. -/
def SetsSelector (f : Filter) : Prop :=
  f.namespaces ≠ none ∨ f.labels ≠ none ∨ f.annotations ≠ none ∨ f.owner ≠ none ∨ f.kind ≠ none

/-- The requirements of a filter's label selector, if it has one, are well formed. -/
def RequirementsWellFormed (f : Filter) : Prop :=
  ∀ s, f.labels = some s → ∀ r ∈ s.matchExpressions, r.WellFormed

/-- A filter a rule may carry: it sets a selector, its requirements are well formed, and its
owner selector, if any, names a kind or a name. -/
structure WellFormed (f : Filter) : Prop where
  sets : f.SetsSelector
  requirements : f.RequirementsWellFormed
  owner : ∀ s, f.owner = some s → s.kind ≠ none ∨ s.name ≠ none

/-- Why filter `i` is refused, the checks taken in order: whether it sets a selector, then its
requirements in order, then its owner selector. -/
inductive Faults (i : Nat) (f : Filter) : CompileError → Prop
  | noSelector (unset : ¬ f.SetsSelector) : Faults i f (.noSelector i)
  | requirement {s : LabelSelector} {pre : List Requirement} {r : Requirement}
      {post : List Requirement} {e : CompileError} (sets : f.SetsSelector) (labels : f.labels = some s)
      (split : s.matchExpressions = pre ++ r :: post) (before : ∀ q ∈ pre, q.WellFormed)
      (fault : r.Faults i e) : Faults i f e
  | ownerUnset {s : OwnerSelector} (sets : f.SetsSelector) (requirements : f.RequirementsWellFormed)
      (owner : f.owner = some s) (kind : s.kind = none) (name : s.name = none) :
      Faults i f (.ownerUnset i)

variable (i : Nat) (f : Filter)

theorem unset_iff :
    (f.namespaces.isNone && f.labels.isNone && f.annotations.isNone && f.owner.isNone &&
      f.kind.isNone) = true ↔ ¬ f.SetsSelector := by
  simp [SetsSelector, and_assoc]

/-- The first bad requirement of a label selector of filter `i`. -/
theorem findSome?_fault_eq_some_iff (s : LabelSelector) (e : CompileError) :
    s.matchExpressions.findSome? (·.fault? i) = some e ↔
      ∃ pre r post, s.matchExpressions = pre ++ r :: post ∧ (∀ q ∈ pre, q.WellFormed) ∧
        r.Faults i e := by
  simp only [List.findSome?_eq_some_iff, Requirement.fault?_eq_some_iff,
    Requirement.fault?_eq_none_iff]
  constructor
  · rintro ⟨pre, r, post, hsplit, hr, hpre⟩
    exact ⟨pre, r, post, hsplit, hpre, hr⟩
  · rintro ⟨pre, r, post, hsplit, hpre, hr⟩
    exact ⟨pre, r, post, hsplit, hr, hpre⟩

/-- Past the selector check, a filter's fault is its first bad requirement, or else its owner
selector's. -/
theorem fault?_of_sets (hsets : f.SetsSelector) :
    f.fault? i = (f.labels.bind fun s => s.matchExpressions.findSome? (·.fault? i)).or
      (f.owner.bind fun s => if s.kind.isNone && s.name.isNone then some (.ownerUnset i) else none) := by
  unfold fault?
  rw [if_neg (mt (unset_iff f).1 fun h => h hsets)]
  dsimp only
  cases f.labels with
  | none => cases f.owner <;> rfl
  | some s =>
    simp only [Option.bind_some]
    cases s.matchExpressions.findSome? (·.fault? i) with
    | some e => rfl
    | none => cases f.owner <;> rfl

/-- A filter's label selector has no bad requirement exactly when its requirements are well
formed. -/
theorem labelsFault_eq_none_iff :
    (f.labels.bind fun s => s.matchExpressions.findSome? (·.fault? i)) = none ↔
      f.RequirementsWellFormed := by
  simp only [Option.bind_eq_none_iff, List.findSome?_eq_none_iff, Requirement.fault?_eq_none_iff,
    RequirementsWellFormed]

theorem ownerFault_eq_none_iff :
    (f.owner.bind fun s =>
        if s.kind.isNone && s.name.isNone then some (CompileError.ownerUnset i) else none) = none ↔ ∀ s, f.owner = some s → s.kind ≠ none ∨ s.name ≠ none := by
  simp only [Option.bind_eq_none_iff]
  refine forall_congr' fun s => imp_congr_right fun _ => ?_
  by_cases hk : s.kind = none <;> by_cases hn : s.name = none <;> simp [hk, hn]

theorem fault?_eq_none_iff : f.fault? i = none ↔ f.WellFormed := by
  by_cases hsets : f.SetsSelector
  · rw [fault?_of_sets i f hsets, Option.or_eq_none_iff, labelsFault_eq_none_iff,
      ownerFault_eq_none_iff]
    exact ⟨fun h => ⟨hsets, h.1, h.2⟩, fun h => ⟨h.requirements, h.owner⟩⟩
  · unfold fault?
    rw [if_pos ((unset_iff f).2 hsets)]
    exact ⟨nofun, fun h => absurd h.sets hsets⟩

theorem fault?_eq_some_iff (e : CompileError) : f.fault? i = some e ↔ f.Faults i e := by
  by_cases hsets : f.SetsSelector
  · rw [fault?_of_sets i f hsets, Option.or_eq_some_iff, labelsFault_eq_none_iff]
    constructor
    · rintro (hreq | ⟨hreqs, howner⟩)
      · obtain ⟨s, hs, hfs⟩ := Option.bind_eq_some_iff.1 hreq
        obtain ⟨pre, r, post, hsplit, hpre, hr⟩ := (findSome?_fault_eq_some_iff i s e).1 hfs
        exact .requirement hsets hs hsplit hpre hr
      · obtain ⟨s, hs, hown⟩ := Option.bind_eq_some_iff.1 howner
        by_cases hk : s.kind = none <;> by_cases hn : s.name = none <;> simp [hk, hn] at hown
        subst hown
        exact .ownerUnset hsets hreqs hs hk hn
    · rintro (hunset | ⟨-, hs, hsplit, hpre, hr⟩ | ⟨-, hreqs, hs, hk, hn⟩)
      · exact absurd hsets hunset
      · exact .inl (Option.bind_eq_some_iff.2
          ⟨_, hs, (findSome?_fault_eq_some_iff i _ e).2 ⟨_, _, _, hsplit, hpre, hr⟩⟩)
      · exact .inr ⟨hreqs, Option.bind_eq_some_iff.2 ⟨_, hs, by simp [hk, hn]⟩⟩
  · unfold fault?
    rw [if_pos ((unset_iff f).2 hsets), Option.some.injEq]
    constructor
    · rintro rfl
      exact .noSelector hsets
    · rintro (- | ⟨hsets', -⟩ | ⟨hsets', -⟩)
      · rfl
      · exact absurd hsets' hsets
      · exact absurd hsets' hsets

end Filter

/-- The first fault among the filters numbered from `i` is none exactly when all are well
formed. -/
theorem firstFault_eq_none_iff :
    ∀ (i : Nat) (fs : List Filter), firstFault i fs = none ↔ ∀ f ∈ fs, f.WellFormed
  | _, [] => by simp [firstFault]
  | i, f :: rest => by
    rw [firstFault, Option.orElse_eq_or, Option.or_eq_none_iff, Filter.fault?_eq_none_iff,
      firstFault_eq_none_iff (i + 1) rest, List.forall_mem_cons]

/-- The first fault among the filters numbered from `i` is the fault of the first filter that
is not well formed, under its number. -/
theorem firstFault_eq_some_iff : ∀ (i : Nat) (fs : List Filter) (e : CompileError),
    firstFault i fs = some e ↔
      ∃ pre f post, fs = pre ++ f :: post ∧ (∀ g ∈ pre, g.WellFormed) ∧ f.Faults (i + pre.length) e
  | _, [], e => by simp [firstFault]
  | i, f :: rest, e => by
    rw [firstFault, Option.orElse_eq_or, Option.or_eq_some_iff, Filter.fault?_eq_some_iff,
      Filter.fault?_eq_none_iff, firstFault_eq_some_iff (i + 1) rest e]
    constructor
    · rintro (hf | ⟨hwf, pre, g, post, hsplit, hpre, hg⟩)
      · exact ⟨[], f, rest, rfl, by simp, hf⟩
      · refine ⟨f :: pre, g, post, by rw [hsplit, List.cons_append], ?_, ?_⟩
        · exact List.forall_mem_cons.2 ⟨hwf, hpre⟩
        · rwa [List.length_cons, ← Nat.add_assoc, Nat.add_right_comm]
    · rintro ⟨pre, g, post, hsplit, hpre, hg⟩
      cases pre with
      | nil =>
        obtain ⟨rfl, rfl⟩ := List.cons_eq_cons.1 hsplit
        exact .inl hg
      | cons h pre =>
        obtain ⟨rfl, rfl⟩ := List.cons_eq_cons.1 hsplit
        refine .inr ⟨hpre f List.mem_cons_self, pre, g, post, rfl,
          fun q hq => hpre q (List.mem_cons_of_mem _ hq), ?_⟩
        rwa [List.length_cons, ← Nat.add_assoc, Nat.add_right_comm] at hg

namespace Definition

/-- A rule compiles exactly when it has filters and all of them are well formed. -/
theorem compile_ok_iff (d : Definition) :
    (∃ m, d.compile = .ok m) ↔ d.spec.filters ≠ [] ∧ ∀ f ∈ d.spec.filters, f.WellFormed := by
  rw [← firstFault_eq_none_iff 0]
  unfold compile
  by_cases h : d.spec.filters = []
  · simp [h]
  · rw [if_neg (by simpa using h)]
    cases firstFault 0 d.spec.filters <;> simp [h]

/-- A rule fails to compile for want of filters, or with the fault of its first filter that is
not well formed. -/
theorem compile_eq_error_iff (d : Definition) (e : CompileError) :
    d.compile = .error e ↔ (d.spec.filters = [] ∧ e = .noFilters) ∨
      ∃ pre f post, d.spec.filters = pre ++ f :: post ∧ (∀ g ∈ pre, g.WellFormed) ∧
        f.Faults pre.length e := by
  have hfirst := firstFault_eq_some_iff 0 d.spec.filters e
  simp only [Nat.zero_add] at hfirst
  unfold compile
  by_cases h : d.spec.filters = []
  · simp [h, eq_comm]
  · rw [if_neg (by simpa using h), ← hfirst]
    cases firstFault 0 d.spec.filters <;> simp [h]

theorem compile_eq_ok {d : Definition} {m : Matcher} (h : d.compile = .ok m) :
    m = ⟨d.spec.group, d.spec.kind.filter (!·.isEmpty), d.spec.filters⟩ := by
  unfold compile at h
  split at h
  · cases h
  · split at h
    · cases h
    · cases h
      rfl

end Definition

/-! ## Matching -/

namespace Requirement

/-- What a requirement asks of the labels: `In` the key with one of the values, `NotIn` the key
missing or with none of them, `Exists` the key, `DoesNotExist` its absence. -/
def Holds (r : Requirement) (labels : TextMap) : Prop :=
  match r.op with
  | .isIn => ∃ v, labels.get? r.key = some v ∧ v ∈ r.values
  | .notIn => ∀ v, labels.get? r.key = some v → v ∉ r.values
  | .exists_ => labels.get? r.key ≠ none
  | .doesNotExist => labels.get? r.key = none

theorem admits_iff (r : Requirement) (labels : TextMap) :
    r.admits labels = true ↔ r.Holds labels := by
  unfold admits Holds
  cases r.op <;> cases labels.get? r.key <;> simp

end Requirement

namespace LabelSelector

/-- What a label selector asks of the labels: every exact label with its value, and every
requirement. -/
def Holds (s : LabelSelector) (labels : TextMap) : Prop :=
  (∀ k v, (k, v) ∈ s.matchLabels.entries → labels.get? k = some v) ∧
    ∀ r ∈ s.matchExpressions, r.Holds labels

theorem admits_iff (s : LabelSelector) (labels : TextMap) :
    s.admits labels = true ↔ s.Holds labels := by
  simp [admits, Holds, List.all_eq_true, Requirement.admits_iff]

end LabelSelector

namespace Filter

/-- What a filter asks of an object, given the rule's kind: every selector it sets passes. The
filter's kind, or else the rule's kind when that is not empty, is the object's; a non-empty
namespace list holds the object's namespace, a missing one counted as empty; the labels pass the
label selector; every annotation is present with its value; and some owner reference has the
owner selector's kind and name, where set. -/
structure Passes (f : Filter) (ruleKind : Option String) (o : CandidateObject) : Prop where
  kind : ∀ k, f.kind = some k → o.kind = k
  ruleKind : f.kind = none → ∀ k, ruleKind = some k → k ≠ "" → o.kind = k
  namespaces : ∀ names, f.namespaces = some names → names ≠ [] → o.metadata.ns.getD "" ∈ names
  labels : ∀ s, f.labels = some s → s.Holds o.metadata.labels
  annotations : ∀ a, f.annotations = some a →
    ∀ k v, (k, v) ∈ a.entries → o.metadata.annotations.get? k = some v
  owner : ∀ s, f.owner = some s → ∃ ref ∈ o.metadata.owners,
    (∀ k, s.kind = some k → ref.kind = k) ∧ ∀ n, s.name = some n → ref.name = n

/-- A filter admits an object, with the rule's kind kept when it is not empty, exactly when the
object passes it. -/
theorem admits_iff (f : Filter) (ruleKind : Option String) (o : CandidateObject) :
    f.admits (ruleKind.filter (!·.isEmpty)) o = true ↔ f.Passes ruleKind o := by
  unfold admits
  simp only [Bool.and_eq_true]
  constructor
  · rintro ⟨⟨⟨⟨hkind, hns⟩, hlabels⟩, hann⟩, howner⟩
    refine ⟨fun k hk => ?_, fun hk k hr hne => ?_, fun names hn hne => ?_, fun s hs => ?_,
      fun a ha k v hkv => ?_, fun s hs => ?_⟩
    · simpa [hk] using hkind
    · simpa [hk, hr, hne, Option.filter_some] using hkind
    · simpa [hn, hne] using hns
    · simpa [hs, LabelSelector.admits_iff] using hlabels
    · simp only [ha, List.all_eq_true, beq_iff_eq] at hann
      exact hann (k, v) hkv
    · simpa [hs, Option.all_eq_true] using howner
  · intro h
    refine ⟨⟨⟨⟨?kind, ?namespaces⟩, ?labels⟩, ?annotations⟩, ?owner⟩
    case kind =>
      cases hk : f.kind with
      | some k => simp [h.kind k hk]
      | none =>
        cases hr : ruleKind with
        | none => rfl
        | some k => by_cases hne : k = "" <;> simp [hne, h.ruleKind hk k hr, Option.filter_some]
    case namespaces =>
      cases hn : f.namespaces with
      | none => rfl
      | some names => by_cases hne : names = [] <;> simp [hne, h.namespaces names hn]
    case labels =>
      cases hs : f.labels with
      | none => rfl
      | some s => simpa [LabelSelector.admits_iff] using h.labels s hs
    case annotations =>
      cases ha : f.annotations with
      | none => rfl
      | some a => simpa [List.all_eq_true] using h.annotations a ha
    case owner =>
      cases hs : f.owner with
      | none => rfl
      | some s => simpa [Option.all_eq_true] using h.owner s hs

end Filter

namespace Definition

/-- A rule cannot judge an object without a kind when its kind is set and not empty, or when some
filter sets a kind, even an empty one. -/
def NeedsKind (d : Definition) : Prop :=
  (∃ k, d.spec.kind = some k ∧ k ≠ "") ∨ ∃ f ∈ d.spec.filters, f.kind ≠ none

/-- A rule meters an object when its group, if set, is the object's, and the object passes some
filter. -/
def Meters (d : Definition) (o : CandidateObject) : Prop :=
  (∀ g, d.spec.group = some g → g = o.group) ∧ ∃ f ∈ d.spec.filters, f.Passes d.spec.kind o

theorem needsKind_iff (d : Definition) :
    (Matcher.mk d.spec.group (d.spec.kind.filter (!·.isEmpty)) d.spec.filters).needsKind = true ↔
      d.NeedsKind := by
  simp [Matcher.needsKind, NeedsKind, Option.isSome_filter, List.any_eq_true,
    Option.isSome_iff_ne_none, Option.any_eq_true]

/-- The matcher of a compiled rule fails on an object exactly when the object has no kind and the
rule needs one, and otherwise says whether the rule meters the object. -/
theorem evaluate_of_compile {d : Definition} {m : Matcher} (h : d.compile = .ok m)
    (o : CandidateObject) :
    (m.evaluate o = .error "object has no kind" ↔ o.kind = "" ∧ d.NeedsKind) ∧
      (¬ (o.kind = "" ∧ d.NeedsKind) → ∃ b, m.evaluate o = .ok b ∧ (b = true ↔ d.Meters o)) := by
  obtain rfl := compile_eq_ok h
  unfold Matcher.evaluate
  by_cases hno : o.kind = "" ∧ d.NeedsKind
  · rw [if_pos (by simp [hno.1, (needsKind_iff d).2 hno.2])]
    exact ⟨⟨fun _ => hno, fun _ => rfl⟩, fun h => absurd hno h⟩
  · rw [if_neg (by simpa [needsKind_iff, and_comm] using hno)]
    refine ⟨⟨fun h => ?_, fun h => absurd h hno⟩, fun _ => ?_⟩
    · split at h <;> cases h
    · -- an object of another group is not metered; otherwise some filter must pass it
      by_cases hg : d.spec.group.any (· != o.group) = true
      · obtain ⟨g, hg, hne⟩ := (Option.any_eq_true _ _).1 hg
        rw [if_pos ((Option.any_eq_true _ _).2 ⟨g, hg, hne⟩)]
        exact ⟨false, rfl, by simpa [Meters, hg] using fun h => absurd h (by simpa using hne)⟩
      · rw [if_neg hg]
        refine ⟨_, rfl, ?_⟩
        simp only [List.any_eq_true, Filter.admits_iff, Meters]
        simp only [Option.any_eq_true, bne_iff_ne, ne_eq, not_exists, not_and, Classical.not_not] at hg
        exact ⟨fun hf => ⟨hg, hf⟩, fun hm => hm.2⟩

end Definition

/-- A rule compiles exactly when it has filters and every filter is well formed; otherwise it
fails for want of filters, or with the fault of its first filter that is not well formed, the
checks taken in order. The matcher of a rule that compiles fails on an object exactly when the
object has no kind and the rule needs one, and otherwise says whether the rule meters it: its
group, if set, is the object's, and the object passes some filter. -/
theorem Definition.compile_judges_by_filters (d : Definition) :
    ((∃ m, d.compile = .ok m) ↔ d.spec.filters ≠ [] ∧ ∀ f ∈ d.spec.filters, f.WellFormed) ∧
      (∀ e, d.compile = .error e ↔ (d.spec.filters = [] ∧ e = .noFilters) ∨
        ∃ pre f post, d.spec.filters = pre ++ f :: post ∧ (∀ g ∈ pre, g.WellFormed) ∧
          f.Faults pre.length e) ∧
      ∀ m, d.compile = .ok m → ∀ o : CandidateObject,
        (m.evaluate o = .error "object has no kind" ↔ o.kind = "" ∧ d.NeedsKind) ∧
        (¬ (o.kind = "" ∧ d.NeedsKind) → ∃ b, m.evaluate o = .ok b ∧ (b = true ↔ d.Meters o)) :=
  ⟨d.compile_ok_iff, d.compile_eq_error_iff, fun _ h o => Definition.evaluate_of_compile h o⟩

end MeterMatch
