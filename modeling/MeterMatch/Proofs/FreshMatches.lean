import MeterMatch.Proofs.MatchCache
import MeterMatch.Proofs.Run

/-! # Associations agree with a fresh match

The engine keeps its associations current incrementally. An object write matches the object
through the match cache; once the coordinator takes a rule addition or update off the rule
change queue it rematches every object through the cache, and for a deletion it rematches the
objects whose associations name the rule. Cached outcomes are keyed by the rule's and the
object's generations, and a rule's outcomes are purged only when the rule is deleted.

Where no rule change is pending, the associations agree with a fresh match, provided that a
generation pins down what it stands for: while a rule key stays registered, its rules of one
generation have one spec (`Engine.GenerationFixesSpec`), and the objects handed to the engine
with one key and generation are one object (`Engine.GenerationFixesObject`).

* `Engine.Current`: an association agrees with a fresh match by the rules with no pending
  change. A rule write makes its key pending (`Registry.Follows`, `Engine.Current.follow`).
* `Engine.Witnessed`: a cached outcome was the fresh outcome of a handed object by its rule when
  it was stored, and the rule has stayed registered since. Under the two hypotheses it is the
  fresh outcome now (`Engine.witnessed_iff`), so within a call matching through the cache is a
  fresh match (`Engine.Stage.findMatches`).
* `Engine.FreshAt`: the invariant of the points of a run, kept by every call
  (`Engine.FreshAt.succ`).
* `Engine.associations_match_fresh`: whenever the rule change queue is empty, every association
  names exactly the rules that a fresh match of its object finds, in registry order, and that
  match does not fail.
-/

namespace MeterMatch

/-- A rule compiled by the selector compiler: its predicate is the matcher its definition
compiles to. -/
def Rule.Compiled (ρ : Rule) : Prop := ∃ m, ρ.definition.compile = .ok m ∧ ρ.predicate = .selector m

theorem Definition.compile_of_spec {d d' : Definition} (h : d.spec = d'.spec) :
    d.compile = d'.compile := by
  unfold Definition.compile
  rw [h]

theorem filter_filter_of_imp {β : Type} (l : List β) {p q : β → Bool}
    (h : ∀ x, q x = true → p x = true) : (l.filter p).filter q = l.filter q := by
  rw [List.filter_filter]
  refine List.filter_congr fun x _ => ?_
  cases hq : q x
  · rfl
  · simp [h x hq]

namespace Registry

/-- What a rule write keeps: the switch outcome and the compiler, every pending change, the
rules with no change pending after it, rules the registry compiled, and the cached outcomes of
the rules that stay registered. -/
structure Follows (r r' : Registry) : Prop where
  switchOutcome : r'.switchOutcome = r.switchOutcome
  compiler : r'.compiler = r.compiler
  pending : ∀ k, r.changes.holds k = true → r'.changes.holds k = true
  settled : r'.rules.filter (fun ρ => !r'.changes.holds ρ.key) =
    r.rules.filter fun ρ => !r'.changes.holds ρ.key
  rules : ∀ ρ ∈ r'.rules, ρ ∈ r.rules ∨ r.compile ρ.key ρ.definition = .ok ρ.predicate
  cache : ∀ x ∈ r'.cache.entries, x ∈ r.cache.entries ∧
    (r.contains x.1.rule = true → r'.contains x.1.rule = true)

namespace Follows

variable {r r' r'' : Registry}

theorem of_eq (hs : r'.switchOutcome = r.switchOutcome) (hc : r'.compiler = r.compiler)
    (hp : r'.changes.pending = r.changes.pending) (hr : r'.rules = r.rules)
    (hcache : r'.cache = r.cache) : Follows r r' where
  switchOutcome := hs
  compiler := hc
  pending k hk := by simpa [ChangeQueue.holds_eq_any, hp] using hk
  settled := by rw [hr]
  rules ρ hρ := .inl (hr ▸ hρ)
  cache x hx := ⟨hcache ▸ hx, fun h => by simpa [contains, hr] using h⟩

theorem trans (h₁ : Follows r r') (h₂ : Follows r' r'') : Follows r r'' where
  switchOutcome := h₂.switchOutcome.trans h₁.switchOutcome
  compiler := h₂.compiler.trans h₁.compiler
  pending k hk := h₂.pending k (h₁.pending k hk)
  settled := by
    -- a key pending after the first write is pending after the second
    have hn : ∀ ρ : Rule, (!r''.changes.holds ρ.key) = true → (!r'.changes.holds ρ.key) = true := by
      intro ρ hρ
      cases hp : r'.changes.holds ρ.key
      · rfl
      · simp [h₂.pending _ hp] at hρ
    rw [h₂.settled, ← filter_filter_of_imp r'.rules hn, h₁.settled, filter_filter_of_imp r.rules hn]
  rules ρ hρ := by
    rcases h₂.rules ρ hρ with hρ | hc
    · exact h₁.rules ρ hρ
    · exact .inr ((compile_congr h₁.compiler _ _).symm.trans hc)
  cache x hx := by
    obtain ⟨hx', hc₂⟩ := h₂.cache x hx
    obtain ⟨hx'', hc₁⟩ := h₁.cache x hx'
    exact ⟨hx'', fun h => hc₂ (hc₁ h)⟩

theorem submit (h : Engine.RegistryOk r) (kind : DeltaKind) (d : Definition) (now : Nat) :
    Follows r (r.submit kind d now).2 := by
  rcases submit_cases r kind d now with he | ⟨key, p, q, -, hp, hq, -, he⟩
  · exact of_eq (by rw [he]) (by rw [he]) (by rw [he]) (by rw [he]) (by rw [he])
  obtain ⟨M, hM⟩ := h.feed
  have hq' : (r.submit kind d now).2.changes = q := by rw [he]
  have hr' : (r.submit kind d now).2.rules = place r.rules ⟨key, d, p⟩ := by rw [he]
  have hcache : (r.submit kind d now).2.cache = r.cache := by rw [he]
  -- the write's key is pending after it
  have hheld := ChangeQueue.holds_push_retain hM.faithful.distinct hM.policy hq
  refine ⟨by rw [he], by rw [he], fun k hk => ?_, ?_, fun ρ hρ => ?_, fun x hx => ?_⟩
  · rw [hq', hheld, hk, Bool.or_true]
  · rw [hq', hr']
    exact filter_place r.rules _ (by simp [hheld])
  · rw [hr'] at hρ
    rcases mem_place hρ with hρ | rfl
    · exact .inl hρ
    · exact .inr hp
  · refine ⟨hcache ▸ hx, fun hc => ?_⟩
    rw [contains_of_place hr', hc, Bool.or_true]

theorem delete (h : Engine.RegistryOk r) (d : Definition) : Follows r (r.delete d).2 := by
  rcases delete_cases r d with he | ⟨key, q, -, hq, -, he⟩
  · exact of_eq (by rw [he]) (by rw [he]) (by rw [he]) (by rw [he]) (by rw [he])
  obtain ⟨M, hM⟩ := h.feed
  have hq' : (r.delete d).2.changes = q := by rw [he]
  have hr' : (r.delete d).2.rules = r.rules.filter (·.key != key) := by rw [he]
  have hcache : (r.delete d).2.cache = (r.cache.forgetRule key).2 := by rw [he]
  have hheld := ChangeQueue.holds_push_retain hM.faithful.distinct hM.policy hq
  refine ⟨by rw [he], by rw [he], fun k hk => ?_, ?_, fun ρ hρ => ?_, fun x hx => ?_⟩
  · rw [hq', hheld, hk, Bool.or_true]
  · -- the dropped key is pending
    rw [hq', hr']
    refine filter_filter_of_imp r.rules fun ρ hρ => ?_
    have hne : ρ.key ≠ key := by
      intro hk
      simp [hheld, hk] at hρ
    simpa using hne
  · rw [hr'] at hρ
    exact .inl (List.mem_filter.1 hρ).1
  · rw [hcache] at hx
    obtain ⟨hx', hne⟩ := r.cache.forgetRule_entries key x hx
    refine ⟨hx', fun hc => ?_⟩
    rw [contains_of_filter hr', hc]
    simpa using hne

theorem resync (h : Engine.RegistryOk r) (listing : List Definition) (now : Nat) :
    Follows r (r.resync listing now).2 :=
  (resync_induction (fun r' => Engine.RegistryOk r' ∧ Follows r r') listing now
    (fun _ _ d hk h' => ⟨h'.1.submit hk d now, h'.2.trans (submit h'.1 _ d now)⟩)
    (fun _ d h' => ⟨h'.1.delete d, h'.2.trans (delete h'.1 d)⟩)
    (fun _ h' => ⟨h'.1.of_eq rfl (by simp) (by simp), h'.2.trans (of_eq rfl rfl (by simp) rfl rfl)⟩)
    ⟨h, of_eq rfl rfl rfl rfl rfl⟩).2

/-- A call that writes rules changes only the registry, which follows the one before it. -/
theorem step {op : Engine.Op} (hw : op.writesRules = true) {e : Engine}
    (h : Engine.RegistryOk e.registry) :
    e.step op = { e with registry := (e.step op).registry } ∧ Follows e.registry (e.step op).registry := by
  cases op <;> simp only [Engine.Op.writesRules, Bool.false_eq_true] at hw
  · exact ⟨rfl, submit h _ _ _⟩
  · exact ⟨rfl, submit h _ _ _⟩
  · exact ⟨rfl, delete h _⟩
  · exact ⟨rfl, resync h _ _⟩

end Follows

end Registry

namespace Engine

/-! ## Agreeing with a fresh match -/

/-- An association agrees with a fresh match of its object by the rules of `r` whose keys `P`
leaves out. -/
def Current (r : Registry) (P : ObjectKey → Bool) (a : Association) : Prop :=
  ∃ found, r.freshMatches a.object a.key (r.rules.filter fun ρ => !P ρ.key) = .ok found ∧
    a.rules.filter (fun k => !P k) = found.map (·.key)

/-- What a key holds, if anything, satisfies `p`. -/
def Stored (p : Association → Prop) (x : Option Association) : Prop := ∀ a, x = some a → p a

theorem Stored.none (p : Association → Prop) : Stored p none := fun _ h => nomatch h

theorem Stored.some {p : Association → Prop} {a : Association} (h : p a) : Stored p (some a) :=
  fun _ ha => Option.some.inj ha ▸ h

theorem Stored.mono {p q : Association → Prop} (hpq : ∀ a, p a → q a) {x : Option Association}
    (h : Stored p x) : Stored q x :=
  fun a ha => hpq a (h a ha)

section Current
variable {r : Registry} {P : ObjectKey → Bool} {a : Association}

theorem Current.of_fresh {found : List Rule}
    (hf : r.freshMatches a.object a.key r.rules = .ok found) (hr : a.rules = found.map (·.key))
    (P : ObjectKey → Bool) : Current r P a := by
  refine ⟨found.filter fun ρ => !P ρ.key, Registry.freshMatches_filter _ hf, ?_⟩
  rw [hr, List.filter_map]
  rfl

theorem Current.mono {P' : ObjectKey → Bool} (hP : ∀ k, P k = true → P' k = true)
    (h : Current r P a) : Current r P' a := by
  obtain ⟨found, hf, hr⟩ := h
  -- a key that `P'` leaves out, `P` leaves out
  have hn : ∀ k, (!P' k) = true → (!P k) = true := by
    intro k hk
    cases hp : P k
    · rfl
    · simp [hP k hp] at hk
  refine ⟨found.filter fun ρ => !P' ρ.key, ?_, ?_⟩
  · rw [← filter_filter_of_imp r.rules fun ρ => hn ρ.key]
    exact Registry.freshMatches_filter _ hf
  · rw [← filter_filter_of_imp a.rules hn, hr, List.filter_map]
    rfl

/-- An association that does not name an unregistered key agrees alike whether or not that key
is pending. -/
theorem Current.release {x : ObjectKey} (h : Current r (fun k => x == k || P k) a)
    (hx : x ∉ a.rules) (hreg : r.contains x = false) : Current r P a := by
  obtain ⟨found, hf, hr⟩ := h
  have hrules : (r.rules.filter fun ρ => !(x == ρ.key || P ρ.key)) =
      r.rules.filter fun ρ => !P ρ.key := by
    refine List.filter_congr fun ρ hρ => ?_
    have hne : (x == ρ.key) = false := by
      cases hb : x == ρ.key
      · rfl
      · rw [beq_iff_eq.1 hb, Registry.contains_of_mem hρ] at hreg
        cases hreg
    simp [hne]
  have hnamed : (a.rules.filter fun k => !(x == k || P k)) = a.rules.filter fun k => !P k := by
    refine List.filter_congr fun k hk => ?_
    have hne : (x == k) = false := by
      cases hb : x == k
      · rfl
      · exact absurd (beq_iff_eq.1 hb ▸ hk) hx
    simp [hne]
  exact ⟨found, hrules ▸ hf, hnamed ▸ hr⟩

theorem Current.of_eq {r' : Registry} (hr : r'.rules = r.rules)
    (hs : r'.switchOutcome = r.switchOutcome) (h : Current r P a) : Current r' P a := by
  obtain ⟨found, hf, hrules⟩ := h
  refine ⟨found, ?_, hrules⟩
  rw [hr, Registry.freshMatches_congr hs]
  exact hf

/-- A rule write keeps agreement by the rules with no pending change. -/
theorem Current.follow {r' : Registry} (hfol : Registry.Follows r r')
    (h : Current r r.changes.holds a) : Current r' r'.changes.holds a := by
  obtain ⟨found, hf, hr⟩ := h.mono hfol.pending
  refine ⟨found, ?_, hr⟩
  rw [hfol.settled, Registry.freshMatches_congr hfol.switchOutcome]
  exact hf

end Current

/-- Every association agrees with a fresh match by the rules of `R` whose keys have no change
pending on the engine's rule change queue. -/
def Currency (R : Registry) (e : Engine) : Prop :=
  ∀ k, Stored (Current R e.registry.changes.holds) (e.tracked.get? k)

/-! ## Runs -/

/-- The objects a run hands to the engine. -/
def handed (ops : List Op) : List CandidateObject := ops.flatMap Op.objects

/-- While a rule key stays registered, its rules of one generation have one spec. -/
def GenerationFixesSpec (start : Engine) (ops : List Op) : Prop :=
  ∀ x i j ρ ρ', i ≤ j → j ≤ ops.length →
    (∀ m, i ≤ m → m ≤ j → (after start ops m).registry.contains x = true) →
    (after start ops i).registry.get? x = some ρ → (after start ops j).registry.get? x = some ρ' →
    ρ.generation = ρ'.generation → ρ.definition.spec = ρ'.definition.spec

/-- Objects handed to the engine with one key and generation are one object. -/
def GenerationFixesObject (ops : List Op) : Prop :=
  ∀ o₁ ∈ handed ops, ∀ o₂ ∈ handed ops, ∀ k, o₁.key = .ok k → o₂.key = .ok k →
    o₁.generation = o₂.generation → o₁ = o₂

/-! ## Where the rules of a run come from -/

/-- The definitions a call writes: the one it adds or updates, or those it lists. -/
def Op.written : Op → List Definition
  | .addRule d | .updateRule d => [d]
  | .resyncRules listing => listing
  | _ => []

/-- A call that writes no rules keeps them. -/
theorem step_rules_of_fixed {e : Engine} (hs : Sound e) {op : Op} (hw : op.writesRules = false) :
    (e.step op).registry.rules = e.registry.rules :=
  (Sound.step_induction_fixed (fun e' => e'.registry.rules = e.registry.rules) (fun _ => True) op hw
    (fun e' o skip _ _ h => by rw [apply_registry]; exact h) (fun _ _ _ _ _ => trivial)
    (fun e' k _ h => by rw [untrack_registry]; exact h)
    (fun e' _ h => (processNext_rules e').trans h) (fun _ _ h => h) (fun _ h => h)
    (fun _ _ _ h => h) (fun _ _ => trivial) hs rfl).2

/-- A call keeps the rules defined by `D` when `D` holds what it writes. -/
theorem definedBy_step {D : List Definition} {e : Engine} (hs : Sound e)
    (h : Registry.DefinedBy D e.registry) (op : Op) (hop : ∀ d ∈ op.written, d ∈ D) :
    Registry.DefinedBy D (e.step op).registry := by
  cases hw : op.writesRules
  case false => exact h.of_rules_eq (step_rules_of_fixed hs hw)
  cases op <;> simp only [Op.writesRules, Bool.false_eq_true] at hw
  case addRule d => exact h.submit (hop d (by simp [Op.written])) _ _
  case updateRule d => exact h.submit (hop d (by simp [Op.written])) _ _
  case deleteRule d => exact h.delete d
  case resyncRules listing => exact h.resync hop _

/-- Every point of a run from an engine without rules has its rules defined by what the run
writes. -/
theorem definedBy_after {start : Engine} (hs : Sound start) (hstart : start.registry.rules = [])
    (ops : List Op) (n : Nat) :
    Registry.DefinedBy (ops.flatMap Op.written) (after start ops n).registry := by
  -- the first `n` calls write only what the whole run writes
  have hrun : ∀ (l : List Op) {e : Engine}, (∀ op ∈ l, op ∈ ops) → Sound e →
      Registry.DefinedBy (ops.flatMap Op.written) e.registry →
        Registry.DefinedBy (ops.flatMap Op.written) (l.foldl step e).registry := by
    intro l
    induction l with
    | nil => exact fun _ _ h => h
    | cons op l ih =>
      intro e hl hse h
      exact ih (fun op' h' => hl op' (List.mem_cons_of_mem _ h')) (hse.step op)
        (definedBy_step hse h op fun d hd => List.mem_flatMap.2 ⟨op, hl op List.mem_cons_self, hd⟩)
  exact hrun _ (fun op hop => List.mem_of_mem_take hop) hs (.of_rules hstart)

/-- In a run from an engine without rules, whose written definitions of one key and one
generation have one spec, a key's rules of one generation have one spec. -/
theorem generationFixesSpec_of_written {start : Engine} (hs : Sound start)
    (hstart : start.registry.rules = []) {ops : List Op}
    (hD : Registry.OneSpecPerGeneration (ops.flatMap Op.written)) : GenerationFixesSpec start ops :=
  fun _ i j _ _ _ _ _ hρ hρ' hgen =>
    Registry.DefinedBy.spec_eq hD (definedBy_after hs hstart ops i) (definedBy_after hs hstart ops j)
      hρ hρ' hgen

section Run
variable (start : Engine) (ops : List Op)

/-- A cached outcome is witnessed at the `n`-th point of a run: at an earlier point, from which
on its rule has stayed registered, the rule had the entry's generation and compiled to a matcher
that judged a handed object of the entry's object and generation so. -/
def Witnessed (n : Nat) (x : MatchKey × Outcome) : Prop :=
  ∃ i ≤ n, (∀ m, i ≤ m → m ≤ n → (after start ops m).registry.contains x.1.rule = true) ∧
    ∃ ρ m, (after start ops i).registry.get? x.1.rule = some ρ ∧
      ρ.generation = x.1.ruleGeneration ∧ ρ.definition.compile = .ok m ∧
      ∃ o ∈ handed ops, o.key = .ok x.1.object ∧ o.generation = x.1.objectGeneration ∧
        x.2 = m.evaluate o

/-- An engine within the `n`-th call of a run, when the call writes no rules: the table as the
engine keeps it, the rules, switch outcome and compiler of the `n`-th point, stored objects that
the run handed over, and cached outcomes witnessed at the `n`-th point. -/
structure Stage (n : Nat) (e : Engine) : Prop where
  table : TableOk e.tracked
  rules : e.registry.rules = (after start ops n).registry.rules
  switchOutcome : e.registry.switchOutcome = (after start ops n).registry.switchOutcome
  compiler : e.registry.compiler = (after start ops n).registry.compiler
  objects : ∀ k, Stored (fun a => a.object ∈ handed ops) (e.tracked.get? k)
  cache : e.registry.cache.Every (Witnessed start ops n)

/-- The invariant of the `n`-th point of a run under the selector compiler: every rule is
compiled by it, and every association agrees with a fresh match by the rules with no pending
change. -/
structure FreshAt (n : Nat) : Prop where
  sound : Sound (after start ops n)
  selector : (after start ops n).registry.compiler = .selector
  compiled : ∀ ρ ∈ (after start ops n).registry.rules, ρ.Compiled
  stage : Stage start ops n (after start ops n)
  current : Currency (after start ops n).registry (after start ops n)

variable {start ops} {n : Nat}

theorem Witnessed.contains {x : MatchKey × Outcome} (h : Witnessed start ops n x) :
    (after start ops n).registry.contains x.1.rule = true := by
  obtain ⟨i, hi, hreg, -⟩ := h
  exact hreg n hi (Nat.le_refl n)

theorem Witnessed.succ {x : MatchKey × Outcome} (h : Witnessed start ops n x)
    (hc : (after start ops (n + 1)).registry.contains x.1.rule = true) :
    Witnessed start ops (n + 1) x := by
  obtain ⟨i, hi, hreg, hrest⟩ := h
  refine ⟨i, by omega, fun m h₁ h₂ => ?_, hrest⟩
  by_cases hm : m = n + 1
  · subst hm
    exact hc
  · exact hreg m h₁ (by omega)

/-- Under the two hypotheses, an outcome cached for a handed object by a registered compiled rule
is witnessed exactly when it is the fresh outcome. -/
theorem witnessed_iff (hspec : GenerationFixesSpec start ops) (hobj : GenerationFixesObject ops)
    (hn : n ≤ ops.length) (hnd : ((after start ops n).registry.rules.map (·.key)).Nodup)
    {ρ : Rule} (hρ : ρ ∈ (after start ops n).registry.rules) (hc : ρ.Compiled)
    {o : CandidateObject} (ho : o ∈ handed ops) {okey : ObjectKey} (hk : o.key = .ok okey)
    (r : Registry) (out : Outcome) :
    Witnessed start ops n (⟨ρ.key, ρ.generation, okey, o.generation⟩, out) ↔
      out = r.judge ρ.predicate o := by
  obtain ⟨m, hm, hp⟩ := hc
  have hget : (after start ops n).registry.get? ρ.key = some ρ := Registry.get?_of_mem hnd hρ
  rw [hp]
  constructor
  · rintro ⟨i, hi, hreg, ρ₀, m₀, hρ₀, hgen, hm₀, o₀, ho₀, hk₀, hg₀, rfl⟩
    -- the rule had the same spec then, so the same matcher, and the object is the same object
    have hspec₀ : ρ₀.definition.spec = ρ.definition.spec := hspec ρ.key i n ρ₀ ρ hi hn hreg hρ₀ hget hgen
    have hm' : m₀ = m := by
      rw [Definition.compile_of_spec hspec₀, hm] at hm₀
      cases hm₀
      rfl
    have ho' : o₀ = o := hobj o₀ ho₀ o ho okey hk₀ hk hg₀
    subst hm' ho'
    rfl
  · rintro rfl
    refine ⟨n, Nat.le_refl n, fun m' h₁ h₂ => ?_, ρ, m, hget, rfl, hm, o, ho, hk, rfl, rfl⟩
    obtain rfl : m' = n := by omega
    rw [Registry.contains_eq_isSome, hget]
    rfl

/-! ## Within a call that writes no rules -/

section Stage
variable {e : Engine}

theorem Stage.of_eq {e' : Engine} (h : Stage start ops n e) (ht : e'.tracked = e.tracked)
    (hr : e'.registry.rules = e.registry.rules)
    (hs : e'.registry.switchOutcome = e.registry.switchOutcome)
    (hc : e'.registry.compiler = e.registry.compiler) (hcache : e'.registry.cache = e.registry.cache) :
    Stage start ops n e' where
  table := ht ▸ h.table
  rules := hr.trans h.rules
  switchOutcome := hs.trans h.switchOutcome
  compiler := hc.trans h.compiler
  objects k := ht ▸ h.objects k
  cache := hcache ▸ h.cache

theorem Stage.handed_of_mem (h : Stage start ops n e) {a : Association} (ha : a ∈ e.tracked.list) :
    a.object ∈ handed ops := by
  obtain ⟨k, hk⟩ := h.table.wf.get?_of_mem_list ha
  exact h.objects k a hk

/-- The objects a rematch of every object applies are handed ones. -/
theorem Stage.handed_of_tracked (h : Stage start ops n e) {o : CandidateObject}
    (ho : o ∈ e.tracked.list.map (·.object)) : o ∈ handed ops := by
  obtain ⟨a, ha, rfl⟩ := List.mem_map.1 ho
  exact h.handed_of_mem ha

theorem Stage.untrack (h : Stage start ops n e) (key : ObjectKey) :
    Stage start ops n (e.untrack key).2 := by
  have hreg := untrack_registry e key
  refine ⟨h.table.untrack key, by rw [hreg]; exact h.rules, by rw [hreg]; exact h.switchOutcome,
    by rw [hreg]; exact h.compiler, fun k => untrack_keeps h.table.wf key (Stored.none _) (h.objects k),
    by rw [hreg]; exact h.cache⟩

theorem Currency.untrack (h : Stage start ops n e) {R : Registry} (hcur : Currency R e)
    (key : ObjectKey) : Currency R (e.untrack key).2 := by
  intro k
  rw [untrack_registry]
  exact untrack_keeps h.table.wf key (Stored.none _) (hcur k)

/-! The lemmas below need the two hypotheses and the invariant at the call's point. -/

section Point
variable (hspec : GenerationFixesSpec start ops) (hobj : GenerationFixesObject ops)
  (hF : FreshAt start ops n) (hn : n < ops.length)
include hspec hobj hF hn

/-- Within a call, matching a handed object through the cache is a fresh match, and it keeps the
cached outcomes witnessed. -/
theorem Stage.findMatches (h : Stage start ops n e) {o : CandidateObject} (ho : o ∈ handed ops)
    {okey : ObjectKey} (hk : o.key = .ok okey) (skip : Bool) :
    (e.registry.findMatches o skip).1 = e.registry.freshMatches o okey e.registry.rules ∧
      (e.registry.findMatches o skip).2.cache.Every (Witnessed start ops n) := by
  refine Registry.findMatches_of_every hk h.cache (fun ρ hρ out => ?_) skip
  rw [h.rules] at hρ
  exact witnessed_iff hspec hobj (Nat.le_of_lt hn) hF.sound.registry.keys hρ (hF.compiled ρ hρ) ho hk _ out

/-- Within a call, what a match of a handed object writes agrees with a fresh match. -/
theorem Stage.current_of_found (h : Stage start ops n e) {o : CandidateObject}
    (ho : o ∈ handed ops) {key : ObjectKey} (hk : o.key = .ok key) {skip : Bool}
    {rules : List Rule} (hf : (e.registry.findMatches o skip).1 = .ok rules) (P : ObjectKey → Bool) :
    Current (after start ops n).registry P ⟨key, o, rules.map (·.key)⟩ := by
  rw [(h.findMatches hspec hobj hF hn ho hk skip).1, h.rules,
    Registry.freshMatches_congr h.switchOutcome] at hf
  exact Current.of_fresh hf rfl P

theorem Stage.apply (h : Stage start ops n e) {o : CandidateObject} (ho : o ∈ handed ops)
    (skip : Bool) : Stage start ops n (e.apply o skip).2 := by
  rcases apply_cases e o skip with ⟨_, -, he⟩ | ⟨okey, hk, -⟩
  · rw [he]
    exact h
  have hnd : (e.registry.rules.map (·.key)).Nodup := h.rules ▸ hF.sound.registry.keys
  have hreg := apply_registry e o skip
  refine ⟨h.table.apply o skip, by rw [hreg]; exact h.rules, by rw [hreg]; exact h.switchOutcome,
    by rw [hreg]; exact h.compiler, fun k => ?_, ?_⟩
  · exact apply_keeps h.table hnd o skip (Stored.none _)
      (fun _ _ _ _ => Stored.some ho) (h.objects k)
  · rw [apply_registry_of_key e hk skip]
    exact (h.findMatches hspec hobj hF hn ho hk skip).2

/-- Within a call, an apply of a handed object keeps, at every key, agreement by the rules that
`P` leaves out. -/
theorem Stage.apply_current (h : Stage start ops n e) {o : CandidateObject} (ho : o ∈ handed ops)
    (skip : Bool) {P : ObjectKey → Bool} {k : ObjectKey}
    (hk : Stored (Current (after start ops n).registry P) (e.tracked.get? k)) :
    Stored (Current (after start ops n).registry P) ((e.apply o skip).2.tracked.get? k) :=
  apply_keeps h.table (h.rules ▸ hF.sound.registry.keys) o skip (Stored.none _)
    (fun _ _ hkey hf => Stored.some (h.current_of_found hspec hobj hF hn ho hkey hf P)) hk

/-- Within a call, an apply of a handed object that succeeds leaves its key agreeing with a fresh
match by every rule. -/
theorem Stage.apply_ok (h : Stage start ops n e) {o : CandidateObject} (ho : o ∈ handed ops)
    {key : ObjectKey} (hkey : o.key = .ok key) {skip : Bool} {c : IndexChange}
    (hc : (e.apply o skip).1 = .ok c) (P : ObjectKey → Bool) :
    Stored (Current (after start ops n).registry P) ((e.apply o skip).2.tracked.get? key) :=
  apply_ok_at h.table (h.rules ▸ hF.sound.registry.keys) hkey skip (Stored.none _)
    (fun _ hf => Stored.some (h.current_of_found hspec hobj hF hn ho hkey hf P)) hc

theorem Stage.rematch (h : Stage start ops n e) (key : ObjectKey) (skip : Bool) :
    Stage start ops n (e.rematch key skip).2 :=
  rematch_induction (fun a ha => h.apply hspec hobj hF hn (h.objects key a ha) skip) h

theorem Stage.rematch_current (h : Stage start ops n e) (key : ObjectKey) {P : ObjectKey → Bool}
    {k : ObjectKey} (hk : Stored (Current (after start ops n).registry P) (e.tracked.get? k)) :
    Stored (Current (after start ops n).registry P) ((e.rematch key false).2.tracked.get? k) :=
  rematch_keeps h.table (h.rules ▸ hF.sound.registry.keys) key false (Stored.none _)
    (fun a _ ha hf => Stored.some (h.current_of_found hspec hobj hF hn (h.objects key a ha)
      (h.table.stored key a ha).2 hf P)) hk

theorem Stage.rematch_ok (h : Stage start ops n e) (key : ObjectKey) {c : IndexChange}
    (hc : (e.rematch key false).1 = .ok c) (P : ObjectKey → Bool) :
    Stored (Current (after start ops n).registry P) ((e.rematch key false).2.tracked.get? key) :=
  rematch_ok_at h.table (h.rules ▸ hF.sound.registry.keys) key false (Stored.none _)
    (fun a _ ha hf => Stored.some (h.current_of_found hspec hobj hF hn (h.objects key a ha)
      (h.table.stored key a ha).2 hf P)) hc

theorem Stage.handle (h : Stage start ops n e) (d : Delta Definition) :
    Stage start ops n (Engine.handle e d).2 :=
  handle_induction (Stage start ops n) (· ∈ Engine.handed ops)
    (fun _ _ skip ho h' => h'.apply hspec hobj hF hn ho skip) (fun _ _ h' ha => h'.handed_of_mem ha)
    e d h

theorem Stage.handle_current (h : Stage start ops n e) (d : Delta Definition)
    {P : ObjectKey → Bool} {k : ObjectKey}
    (hk : Stored (Current (after start ops n).registry P) (e.tracked.get? k)) :
    Stored (Current (after start ops n).registry P) ((Engine.handle e d).2.tracked.get? k) :=
  (handle_induction
    (fun e' => Stage start ops n e' ∧ Stored (Current (after start ops n).registry P) (e'.tracked.get? k))
    (· ∈ Engine.handed ops)
    (fun _ _ skip ho h' => ⟨h'.1.apply hspec hobj hF hn ho skip,
      h'.1.apply_current hspec hobj hF hn ho skip h'.2⟩)
    (fun _ _ h' ha => h'.1.handed_of_mem ha) e d ⟨h, hk⟩).2

/-- Within a call, a cascade that succeeds over the associations of a rule no longer registered
keeps agreement once the rule's key is no longer pending: the associations that name the rule
are rematched, and the others never named it. -/
theorem Stage.cascade_current (h : Stage start ops n e) {rule : ObjectKey}
    (hgone : (after start ops n).registry.contains rule = false) {as : List Association}
    (hmem : ∀ a, a ∈ as ↔ ∃ k, e.tracked.get? k = some a ∧ rule ∈ a.rules)
    (hcasc : (cascade as e).1 = .ok ()) {P : ObjectKey → Bool} {k : ObjectKey}
    (hk : Stored (Current (after start ops n).registry fun x => rule == x || P x) (e.tracked.get? k)) :
    Stored (Current (after start ops n).registry P) ((cascade as e).2.tracked.get? k) := by
  by_cases hnamed : ∃ a, e.tracked.get? k = some a ∧ rule ∈ a.rules
  · -- rematched by the cascade
    obtain ⟨a, ha, hra⟩ := hnamed
    rw [← (h.table.stored k a ha).1]
    exact cascade_ok (Stage start ops n)
      (fun e' k' => Stored (Current (after start ops n).registry P) (e'.tracked.get? k'))
      (fun _ key h' => h'.rematch hspec hobj hF hn key false)
      (fun _ key _ h' hk' => h'.rematch_current hspec hobj hF hn key hk')
      (fun _ key _ h' hc => h'.rematch_ok hspec hobj hF hn key hc P)
      as e h hcasc a ((hmem a).2 ⟨k, ha, hra⟩)
  · -- untouched, and it never named the rule
    have hrel : Stored (Current (after start ops n).registry P) (e.tracked.get? k) :=
      fun a ha => (hk a ha).release (fun hra => hnamed ⟨a, ha, hra⟩) hgone
    exact (cascade_induction
      (fun e' => Stage start ops n e' ∧ Stored (Current (after start ops n).registry P) (e'.tracked.get? k))
      (fun _ key h' => ⟨h'.1.rematch hspec hobj hF hn key false,
        h'.1.rematch_current hspec hobj hF hn key h'.2⟩) as e ⟨h, hrel⟩).2

/-- Within a call, after a rematch of every object that succeeds, every association agrees with
a fresh match by every rule. -/
theorem Stage.rematchAll_ok (h : Stage start ops n e) {skip : Bool} {m : Nat}
    (hr : (e.rematchAll skip).1 = .ok m) (P : ObjectKey → Bool) (k : ObjectKey) :
    Stored (Current (after start ops n).registry P) ((e.rematchAll skip).2.tracked.get? k) := by
  -- the objects rematched are those stored at the start
  have hstart : ∀ o ∈ e.tracked.list.map (·.object), o ∈ handed ops := fun _ => h.handed_of_tracked
  by_cases hkey : ∃ a, e.tracked.get? k = some a
  · obtain ⟨a, ha⟩ := hkey
    exact Engine.rematchAll_ok (fun e' k' => Stored (Current (after start ops n).registry P) (e'.tracked.get? k'))
      (fun _ o ho (h' : Stage start ops n _) => h'.apply hspec hobj hF hn (hstart o ho) skip)
      (fun _ o ho _ (h' : Stage start ops n _) hk' =>
        h'.apply_current hspec hobj hF hn (hstart o ho) skip hk')
      (fun _ o ho _ _ (h' : Stage start ops n _) hkey hc =>
        h'.apply_ok hspec hobj hF hn (hstart o ho) hkey hc P)
      h hr a.object (List.mem_map_of_mem (Indexed.mem_list_of_get? ha)) k (h.table.stored k a ha).2
  · -- nothing is stored there, and the rematches keep agreement
    have hnone : e.tracked.get? k = none := by
      cases hx : e.tracked.get? k with
      | none => rfl
      | some a => exact absurd ⟨a, hx⟩ hkey
    refine (@rematchAll_induction
      (fun e' => Stage start ops n e' ∧ Stored (Current (after start ops n).registry P) (e'.tracked.get? k))
      e skip (fun _ o ho h' => ⟨h'.1.apply hspec hobj hF hn (hstart o ho) skip,
        h'.1.apply_current hspec hobj hF hn (hstart o ho) skip h'.2⟩) ⟨h, ?_⟩).2
    rw [hnone]
    exact Stored.none _

theorem Stage.processNext (h : Stage start ops n e) : Stage start ops n e.processNext.2 := by
  rcases processNext_cases e with ⟨-, he⟩ | ⟨d, rest, -, he⟩
  · rw [he]
    exact h
  · have h₀ : Stage start ops n { e with registry := { e.registry with changes := rest } } :=
      h.of_eq rfl rfl rfl rfl rfl
    rw [he]
    exact (h₀.handle hspec hobj hF hn d).of_eq rfl rfl rfl rfl rfl

theorem Currency.apply (h : Stage start ops n e) (hcur : Currency (after start ops n).registry e)
    {o : CandidateObject} (ho : o ∈ handed ops) (skip : Bool) :
    Currency (after start ops n).registry (e.apply o skip).2 := by
  intro k
  rw [apply_registry]
  exact h.apply_current hspec hobj hF hn ho skip (hcur k)

/-- A step of the coordinator keeps agreement by the rules with no pending change. A change
handed back stays pending; a handled addition or update leaves every association rematched; a
handled deletion rematches the associations that name the rule, and the others never named it. -/
theorem Currency.processNext (hs : Sound e) (h : Stage start ops n e)
    (hcur : Currency (after start ops n).registry e) :
    Currency (after start ops n).registry e.processNext.2 := by
  rcases processNext_cases e with ⟨-, he⟩ | ⟨d, rest, ht, he⟩
  · rw [he]
    exact hcur
  -- the handler runs on the rest of the queue
  let e₀ : Engine := { e with registry := { e.registry with changes := rest } }
  have h₀ : Stage start ops n e₀ := h.of_eq rfl rfl rfl rfl rfl
  obtain ⟨hpend, -⟩ := ChangeQueue.take_eq_some ht
  obtain ⟨M, hM⟩ := hs.registry.feed
  have hfree : rest.holds d.key = false :=
    ChangeQueue.not_holds_iff.2 (ChangeQueue.ne_key_of_take hM.faithful.distinct ht)
  -- pending after: those of the rest, and the change's key when it is handed back
  have hafter : e.processNext.2.registry.changes.holds =
      fun k => !(handle e₀ d).1.isOk && d.key == k || rest.holds k := by
    rw [he]
    funext k
    exact ChangeQueue.holds_settle hfree _ k
  have htracked : e.processNext.2.tracked = (handle e₀ d).2.tracked := by rw [he]
  intro k
  -- pending before: the change's key and those of the rest
  have hk : Stored (Current (after start ops n).registry fun x => d.key == x || rest.holds x)
      (e₀.tracked.get? k) := by
    have hfull : e.registry.changes.holds = fun x => d.key == x || rest.holds x := by
      funext x
      simp [ChangeQueue.holds_eq_any, hpend]
    rw [← hfull]
    exact hcur k
  rw [hafter, htracked]
  cases hok : (handle e₀ d).1.isOk
  · -- handed back: every write of the handler keeps agreement
    exact h₀.handle_current hspec hobj hF hn d hk
  have hres : (handle e₀ d).1 = .ok () := Except.eq_ok_of_isOk hok
  rcases handle_cases e₀ d with ⟨-, hfail⟩ | ⟨-, hh, hre⟩ | ⟨hkind, affected, haff, hh⟩
  · exact absurd hres (hfail ())
  · -- an addition or update: every association is rematched
    obtain ⟨m, hm⟩ := hre hres
    rw [hh]
    exact h₀.rematchAll_ok hspec hobj hF hn hm _ k
  -- a deletion: its rule is no longer registered
  have hgone : (after start ops n).registry.contains d.key = false := by
    have heff := hM.faithful.effect d (by rw [hpend]; exact List.mem_cons_self)
    have hnot : e.registry.contains d.key = false := by
      rw [Registry.contains_eq_isSome]
      simpa [Registry.definitions, Delta.effect, hkind] using heff
    simpa [Registry.contains, h.rules] using hnot
  obtain ⟨as, has, hmem⟩ := byIndex_ok h₀.table d.key
  rw [has, Except.ok.injEq] at haff
  subst haff
  rw [hh] at hres ⊢
  exact h₀.cascade_current hspec hobj hF hn hgone hmem hres hk

end Point

end Stage

/-! ## Every point of a run -/

theorem FreshAt.succ_fixed (hspec : GenerationFixesSpec start ops)
    (hobj : GenerationFixesObject ops) (hF : FreshAt start ops n) (hn : n < ops.length)
    (hw : ops[n].writesRules = false) : FreshAt start ops (n + 1) := by
  -- the call keeps the stage of the point before it, and agreement
  have key := Sound.step_induction_fixed
    (fun e => Stage start ops n e ∧ Currency (after start ops n).registry e) (· ∈ handed ops) ops[n] hw
    (fun _ o skip ho _ h => ⟨h.1.apply hspec hobj hF hn ho skip,
      h.2.apply hspec hobj hF hn h.1 ho skip⟩)
    (fun _ _ _ h ha => h.1.handed_of_mem ha)
    (fun _ k _ h => ⟨h.1.untrack k, h.2.untrack h.1 k⟩)
    (fun _ hs h => ⟨h.1.processNext hspec hobj hF hn, h.2.processNext hspec hobj hF hn hs h.1⟩)
    (fun _ _ h => ⟨h.1.of_eq rfl rfl rfl rfl rfl, h.2⟩)
    (fun _ h => ⟨h.1.of_eq rfl rfl rfl rfl rfl, h.2⟩)
    (fun _ _ _ h => ⟨h.1.of_eq rfl rfl rfl rfl rfl, h.2⟩)
    (fun _ ho => List.mem_flatMap.2 ⟨ops[n], List.getElem_mem hn, ho⟩) hF.sound ⟨hF.stage, hF.current⟩
  rw [← after_succ start hn] at key
  obtain ⟨hs, hst, hcur⟩ := key
  refine ⟨hs, hst.compiler.trans hF.selector, fun ρ hρ => hF.compiled ρ (hst.rules ▸ hρ), ?_,
    fun k a ha => (hcur k a ha).of_eq hst.rules hst.switchOutcome⟩
  -- the rules are those of the point before, so cached outcomes stay witnessed
  refine ⟨hst.table, rfl, rfl, rfl, hst.objects, fun x hx => (hst.cache x hx).succ ?_⟩
  have hc := (hst.cache x hx).contains
  unfold Registry.contains at hc ⊢
  rw [hst.rules]
  exact hc

theorem FreshAt.succ_rules (hF : FreshAt start ops n) (hn : n < ops.length)
    (hw : ops[n].writesRules = true) : FreshAt start ops (n + 1) := by
  have hsucc := after_succ start hn
  obtain ⟨he, hfol⟩ := Registry.Follows.step hw hF.sound.registry
  rw [← hsucc] at he hfol
  have ht : (after start ops (n + 1)).tracked = (after start ops n).tracked := by rw [he]
  refine ⟨hsucc ▸ hF.sound.step _, hfol.compiler.trans hF.selector, fun ρ hρ => ?_,
    ⟨ht ▸ hF.stage.table, rfl, rfl, rfl, fun k => ht ▸ hF.stage.objects k, fun x hx => ?_⟩,
    fun k a ha => ?_⟩
  · -- a new rule was compiled by the selector compiler
    rcases hfol.rules ρ hρ with hρ | hc
    · exact hF.compiled ρ hρ
    · obtain ⟨m, hm, hp⟩ := Registry.compile_selector hF.selector hc
      exact ⟨m, hm, hp⟩
  · -- a kept outcome's rule stays registered
    obtain ⟨hx, hc⟩ := hfol.cache x hx
    have hwit := hF.stage.cache x hx
    exact hwit.succ (hc hwit.contains)
  · rw [ht] at ha
    exact (hF.current k a ha).follow hfol

theorem FreshAt.succ (hspec : GenerationFixesSpec start ops) (hobj : GenerationFixesObject ops)
    (hF : FreshAt start ops n) (hn : n < ops.length) : FreshAt start ops (n + 1) := by
  cases hw : ops[n].writesRules
  · exact hF.succ_fixed hspec hobj hn hw
  · exact hF.succ_rules hn hw

theorem FreshAt.upto (hspec : GenerationFixesSpec start ops) (hobj : GenerationFixesObject ops)
    (h0 : FreshAt start ops 0) : ∀ n ≤ ops.length, FreshAt start ops n
  | 0, _ => h0
  | n + 1, hn => (FreshAt.upto hspec hobj h0 n (by omega)).succ hspec hobj (by omega)

end Run

theorem FreshAt.start (capacity refillMs cacheCapacity retryBackoffMs : Nat) (ops : List Op) :
    FreshAt (create (Registry.create .selector capacity refillMs cacheCapacity) retryBackoffMs) ops 0 := by
  have hs := Sound.start .selector capacity refillMs cacheCapacity retryBackoffMs
  refine ⟨hs, rfl, fun ρ hρ => ?_, ⟨hs.table, rfl, rfl, rfl, fun k a ha => ?_, fun x hx => ?_⟩,
    fun k a ha => ?_⟩
  · simp [after, create, Registry.create] at hρ
  · simp [after, create, Indexed.get?] at ha
  · simp [after, create, Registry.create, MatchCache.empty] at hx
  · simp [after, create, Indexed.get?] at ha

/-- In every run from the engine as created with the selector compiler in which, while a rule key
stays registered, its rules of one generation have one spec, and objects handed over with one key
and generation are one object: whenever the rule change queue is empty, every association names
exactly the keys, in registry order, of the rules that a match of its object without the cache
finds, and that match does not fail. -/
theorem associations_match_fresh (capacity refillMs cacheCapacity retryBackoffMs : Nat)
    (ops : List Op)
    (hspec : GenerationFixesSpec
      (create (Registry.create .selector capacity refillMs cacheCapacity) retryBackoffMs) ops)
    (hobj : GenerationFixesObject ops) :
    let e := ops.foldl step
      (create (Registry.create .selector capacity refillMs cacheCapacity) retryBackoffMs)
    e.registry.changes.pending = [] →
      ∀ k a, e.association? k = some a →
        ∃ rules, (e.registry.findMatches a.object true).1 = .ok rules ∧ a.rules = rules.map (·.key) := by
  intro e hempty k a ha
  have hF := FreshAt.upto hspec hobj (FreshAt.start capacity refillMs cacheCapacity retryBackoffMs ops)
    ops.length (Nat.le_refl _)
  have hcur : Currency e.registry e := by
    have := hF.current
    rwa [after_length] at this
  have hs : Sound e := by
    have := hF.sound
    rwa [after_length] at this
  -- with nothing pending, agreement is by every rule
  have hnone : ∀ x, e.registry.changes.holds x = false := fun x => by
    simp [ChangeQueue.holds_eq_any, hempty]
  obtain ⟨found, hf, hr⟩ := hcur k a ha
  simp only [hnone, Bool.not_false] at hf hr
  rw [List.filter_eq_self.2 fun _ _ => rfl] at hf hr
  obtain ⟨hak, hok⟩ := hs.table.stored k a ha
  refine ⟨found, ?_, hr⟩
  rw [Registry.findMatches_skip hok, ← hak]
  exact hf

/-- A run that changes the registry order: `billing/r1` is deleted and added again while an
object it meters is tracked, so it moves behind `billing/r2`. Draining the coordinator rematches
through the cache, which serves the outcomes of `billing/r2` stored when the objects were added
and judges afresh those of `billing/r1`, whose outcomes the delete dropped. -/
theorem associations_match_fresh_after_reordering :
    let r1 : Definition :=
      { metadata := { ns := some "billing", name := "r1", uid := "uid-r1", generation := 1 }
        spec := { filters := [{ namespaces := some ["ns"] }] } }
    let r2 : Definition :=
      { metadata := { ns := some "billing", name := "r2", uid := "uid-r2", generation := 1 }
        spec := { kind := some "Pod", filters := [{ kind := some "Pod" }] } }
    let b : CandidateObject := { metadata := { ns := some "ns", name := "b" }, kind := "Pod" }
    let c : CandidateObject := { metadata := { ns := some "other", name := "c" }, kind := "Pod" }
    let start := create (Registry.create .selector 10 5000 64) 500
    let ops := [Op.addRule r1, .addRule r2, .add b, .add c, .deleteRule r1, .addRule r1, .drain]
    GenerationFixesSpec start ops ∧ GenerationFixesObject ops ∧
      (ops.foldl step start).registry.changes.pending = [] ∧
      ((ops.foldl step start).association? (.inNamespace "ns" "b")).map (·.rules) =
        some [.inNamespace "billing" "r2", .inNamespace "billing" "r1"] ∧
      ∀ k a, (ops.foldl step start).association? k = some a →
        ∃ rules, ((ops.foldl step start).registry.findMatches a.object true).1 = .ok rules ∧
          a.rules = rules.map (·.key) := by
  intro r1 r2 b c start ops
  have hspec : GenerationFixesSpec start ops :=
    generationFixesSpec_of_written (Sound.start .selector 10 5000 64 500) rfl (by decide +kernel)
  -- the two objects have different keys
  have hobj : GenerationFixesObject ops := by
    intro o₁ h₁ o₂ h₂ k hk₁ hk₂ _
    simp only [handed, ops, Op.objects, List.flatMap_cons, List.flatMap_nil, List.nil_append,
      List.cons_append, List.mem_cons, List.not_mem_nil, or_false] at h₁ h₂
    rcases h₁ with rfl | rfl <;> rcases h₂ with rfl | rfl
    all_goals first
      | rfl
      | exact absurd (hk₁.trans hk₂.symm) (by decide +kernel)
  have hempty : (ops.foldl step start).registry.changes.pending = [] := by decide +kernel
  exact ⟨hspec, hobj, hempty, by decide +kernel,
    associations_match_fresh 10 5000 64 500 ops hspec hobj hempty⟩

end Engine

end MeterMatch
