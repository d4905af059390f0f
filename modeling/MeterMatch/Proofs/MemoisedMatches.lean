import MeterMatch.Proofs.FreshMatches

/-! # Memoised matching agrees with fresh matching

The registry memoises each outcome of judging an object by a rule under the rule's key and
generation and the object's key and generation. An edited rule keeps its key, and the outcomes
of its older generations stay cached until they age out; only a delete drops a rule's outcomes.
So a served outcome was produced by a rule of that key and generation that has stayed
registered since, and when a generation pins down the rule's spec and the object, it is the
fresh outcome.

* `Registry.Witnessed`: a cached outcome produced at an earlier point of a sequence of
  registries by a rule that has stayed registered since. `Registry.Witnessed.eq_judge` and
  `Registry.witnessed_judge` read it as the fresh outcome and back.
* `Registry.findMatches_of_right`: a match through a cache whose outcomes for an object are
  right is a fresh match.
* `Registry.MemoAt`: the invariant of the points of a run of registry calls (`Registry.Action`),
  kept by every call (`Registry.MemoAt.succ`).
* `Registry.cached_matches_agree_fresh`: in every run in which, while a rule key stays
  registered, its rules of one generation have one spec, and the objects matched with one key
  and generation are one object, every cached outcome is the fresh outcome, and matching an
  object through the cache gives what matching it afresh gives.
-/

namespace MeterMatch

namespace Registry

/-! ## Outcomes witnessed along a sequence of registries -/

section Sequence
variable (R : Nat → Registry) (H : CandidateObject → Prop)

/-- While a rule key stays registered from one point of `R` to a later one, up to the `N`-th,
its rules of one generation have one spec. -/
def GenerationFixesSpec (N : Nat) : Prop :=
  ∀ x i j ρ ρ', i ≤ j → j ≤ N → (∀ m, i ≤ m → m ≤ j → (R m).contains x = true) →
    (R i).get? x = some ρ → (R j).get? x = some ρ' →
    ρ.generation = ρ'.generation → ρ.definition.spec = ρ'.definition.spec

/-- A cached outcome is witnessed at the `n`-th point of `R`: at an earlier point, from which on
its rule has stayed registered, the rule had the entry's generation and compiled to a matcher
that judged an object satisfying `H`, of the entry's object key and generation, so. -/
def Witnessed (n : Nat) (x : MatchKey × Outcome) : Prop :=
  ∃ i ≤ n, (∀ m, i ≤ m → m ≤ n → (R m).contains x.1.rule = true) ∧
    ∃ ρ m, (R i).get? x.1.rule = some ρ ∧
      ρ.generation = x.1.ruleGeneration ∧ ρ.definition.compile = .ok m ∧
      ∃ o, H o ∧ o.key = .ok x.1.object ∧ o.generation = x.1.objectGeneration ∧
        x.2 = m.evaluate o

variable {R H} {n : Nat}

theorem Witnessed.contains {x : MatchKey × Outcome} (h : Witnessed R H n x) :
    (R n).contains x.1.rule = true := by
  obtain ⟨i, hi, hreg, -⟩ := h
  exact hreg n hi (Nat.le_refl n)

theorem Witnessed.succ {x : MatchKey × Outcome} (h : Witnessed R H n x)
    (hc : (R (n + 1)).contains x.1.rule = true) : Witnessed R H (n + 1) x := by
  obtain ⟨i, hi, hreg, hrest⟩ := h
  refine ⟨i, by omega, fun m h₁ h₂ => ?_, hrest⟩
  by_cases hm : m = n + 1
  · subst hm
    exact hc
  · exact hreg m h₁ (by omega)

/-- An outcome witnessed under a registered compiled rule's key and generation, for an object
that every object satisfying `H` of its key and generation equals, is the rule's fresh outcome on
that object. -/
theorem Witnessed.eq_judge {N : Nat} (hspec : GenerationFixesSpec R N) (hn : n ≤ N)
    (hnd : ((R n).rules.map (·.key)).Nodup) {ρ : Rule} (hρ : ρ ∈ (R n).rules) (hc : ρ.Compiled)
    {o : CandidateObject} {okey : ObjectKey}
    (ho : ∀ o', H o' → o'.key = .ok okey → o'.generation = o.generation → o' = o)
    (r : Registry) {out : Outcome}
    (h : Witnessed R H n (⟨ρ.key, ρ.generation, okey, o.generation⟩, out)) :
    out = r.judge ρ.predicate o := by
  obtain ⟨m, hm, hp⟩ := hc
  obtain ⟨i, hi, hreg, ρ₀, m₀, hρ₀, hgen, hm₀, o₀, ho₀, hk₀, hg₀, rfl⟩ := h
  -- the rule had the same spec then, so the same matcher, and the object is the same object
  have hspec₀ : ρ₀.definition.spec = ρ.definition.spec :=
    hspec ρ.key i n ρ₀ ρ hi hn hreg hρ₀ (get?_of_mem hnd hρ) hgen
  have hm' : m₀ = m := by
    rw [Definition.compile_of_spec hspec₀, hm] at hm₀
    cases hm₀
    rfl
  subst hm'
  rw [hp, ho o₀ ho₀ hk₀ hg₀]
  rfl

/-- The fresh outcome of a registered compiled rule on an object satisfying `H` is witnessed. -/
theorem witnessed_judge (hnd : ((R n).rules.map (·.key)).Nodup) {ρ : Rule} (hρ : ρ ∈ (R n).rules)
    (hc : ρ.Compiled) {o : CandidateObject} (ho : H o) {okey : ObjectKey} (hk : o.key = .ok okey)
    (r : Registry) :
    Witnessed R H n (⟨ρ.key, ρ.generation, okey, o.generation⟩, r.judge ρ.predicate o) := by
  obtain ⟨m, hm, hp⟩ := hc
  refine ⟨n, Nat.le_refl n, fun m' h₁ h₂ => ?_, ρ, m, get?_of_mem hnd hρ, rfl, hm, o, ho, hk, rfl,
    by rw [hp]; rfl⟩
  obtain rfl : m' = n := by omega
  exact contains_of_mem hρ

end Sequence

/-! ## Matching through right outcomes -/

/-- A match through a cache whose outcomes for an object's key and generation are, under each
registered rule's key and generation, the rule's fresh outcome on the object, is a fresh match. -/
theorem findMatches_of_right {r : Registry} (hnd : (r.rules.map (·.key)).Nodup)
    {o : CandidateObject} {okey : ObjectKey} (hk : o.key = .ok okey)
    (hright : ∀ x ∈ r.cache.entries, x.1.object = okey → x.1.objectGeneration = o.generation →
      ∀ ρ ∈ r.rules, ρ.key = x.1.rule → ρ.generation = x.1.ruleGeneration →
        x.2 = r.judge ρ.predicate o)
    (skip : Bool) : (r.findMatches o skip).1 = r.freshMatches o okey r.rules := by
  refine (findMatches_of_every hk hright (fun ρ hρ out => ⟨fun h => h rfl rfl ρ hρ rfl rfl, ?_⟩)
    skip).1
  -- a rule of the same key is the rule itself
  rintro rfl - - ρ' hρ' hkey -
  have hsame : ρ' = ρ := by
    have h := get?_of_mem hnd hρ'
    rw [hkey, get?_of_mem hnd hρ] at h
    exact (Option.some.inj h).symm
  rw [hsame]

/-! ## Runs of registry calls -/

/-- A call on the registry in a run that also matches objects: a rule write at a time, a pop by
the consumer of its changes, or a match of an object, through the cache unless `skip`. -/
inductive Action where
  | add (d : Definition) (now : Nat)
  | update (d : Definition) (now : Nat)
  | delete (d : Definition)
  | resync (listing : List Definition) (now : Nat)
  | pop (handled : Bool)
  | findMatches (o : CandidateObject) (skip : Bool)

/-- The object an action matches. -/
def Action.objects : Action → List CandidateObject
  | .findMatches o _ => [o]
  | _ => []

/-- The objects a run matches. -/
def Action.handed (acts : List Action) : List CandidateObject := acts.flatMap Action.objects

/-- The registry after an action. -/
def act (r : Registry) : Action → Registry
  | .add d now => (r.submit .added d now).2
  | .update d now => (r.submit .updated d now).2
  | .delete d => (r.delete d).2
  | .resync listing now => (r.resync listing now).2
  | .pop handled => { r with changes := (r.changes.popReady handled).2 }
  | .findMatches o skip => (r.findMatches o skip).2

/-- The registry after the first `n` actions of a run. -/
def reach (start : Registry) (acts : List Action) (n : Nat) : Registry :=
  (acts.take n).foldl act start

theorem reach_succ (start : Registry) {acts : List Action} {n : Nat} (h : n < acts.length) :
    reach start acts (n + 1) = act (reach start acts n) acts[n] := by
  rw [reach, reach, List.take_add_one, List.getElem?_eq_getElem h, List.foldl_append]
  rfl

theorem reach_length (start : Registry) (acts : List Action) :
    reach start acts acts.length = acts.foldl act start := by
  simp [reach]

/-- The definitions an action writes: the one it adds or updates, or those it lists. -/
def Action.written : Action → List Definition
  | .add d _ | .update d _ => [d]
  | .resync listing _ => listing
  | _ => []

/-- An action keeps the rules defined by `D` when `D` holds what it writes. -/
theorem DefinedBy.act {D : List Definition} {r : Registry} (h : DefinedBy D r) (a : Action)
    (ha : ∀ d ∈ a.written, d ∈ D) : DefinedBy D (Registry.act r a) := by
  cases a with
  | add d now => exact h.submit (ha d (by simp [Action.written])) _ now
  | update d now => exact h.submit (ha d (by simp [Action.written])) _ now
  | delete d => exact h.delete d
  | resync listing now => exact h.resync ha now
  | pop handled => exact h.of_rules_eq rfl
  | findMatches o skip => exact h.of_rules_eq (by rw [Registry.act, findMatches_eq])

/-- Every point of a run from a registry without rules has its rules defined by what the run
writes. -/
theorem DefinedBy.reach {start : Registry} (hstart : start.rules = []) (acts : List Action)
    (n : Nat) : DefinedBy (acts.flatMap Action.written) (reach start acts n) := by
  -- the first `n` actions write only what the whole run writes
  have hrun : ∀ (l : List Action) {r : Registry}, (∀ a ∈ l, a ∈ acts) →
      DefinedBy (acts.flatMap Action.written) r →
        DefinedBy (acts.flatMap Action.written) (l.foldl Registry.act r) := by
    intro l
    induction l with
    | nil => exact fun _ h => h
    | cons a l ih =>
      intro r hl h
      exact ih (fun a' ha' => hl a' (List.mem_cons_of_mem _ ha'))
        (h.act a fun d hd => List.mem_flatMap.2 ⟨a, hl a List.mem_cons_self, hd⟩)
  exact hrun _ (fun a ha => List.mem_of_mem_take ha) (.of_rules hstart)

/-- In a run from a registry without rules, whose written definitions of one key and one
generation have one spec, a key's rules of one generation have one spec. -/
theorem generationFixesSpec_of_written {start : Registry} (hstart : start.rules = [])
    {acts : List Action} (hD : OneSpecPerGeneration (acts.flatMap Action.written)) :
    GenerationFixesSpec (reach start acts) acts.length :=
  fun _ i j _ _ _ _ _ hρ hρ' hgen =>
    DefinedBy.spec_eq hD (.reach hstart acts i) (.reach hstart acts j) hρ hρ' hgen

/-- Objects satisfying `H` with one key and generation are one object. -/
def GenerationFixesObject (H : CandidateObject → Prop) : Prop :=
  ∀ o₁ o₂, H o₁ → H o₂ → ∀ k, o₁.key = .ok k → o₂.key = .ok k → o₁.generation = o₂.generation →
    o₁ = o₂

section Run
variable (start : Registry) (acts : List Action)

/-- The invariant of the `n`-th point of a run under the selector compiler: one rule per key and
a faithful change queue, every rule compiled by the selector compiler, and every cached outcome
witnessed. -/
structure MemoAt (n : Nat) : Prop where
  ok : Engine.RegistryOk (reach start acts n)
  selector : (reach start acts n).compiler = .selector
  compiled : ∀ ρ ∈ (reach start acts n).rules, ρ.Compiled
  cache : (reach start acts n).cache.Every (Witnessed (reach start acts) (· ∈ Action.handed acts) n)

variable {start acts} {n : Nat}

/-- At a point of a run, a cached outcome under a registered rule's key and generation, for an
object that every matched object of its key and generation equals, is the rule's fresh outcome. -/
theorem MemoAt.right (hspec : GenerationFixesSpec (reach start acts) acts.length)
    (h : MemoAt start acts n) (hn : n ≤ acts.length) {x : MatchKey × Outcome}
    (hx : x ∈ (reach start acts n).cache.entries) {ρ : Rule} (hρ : ρ ∈ (reach start acts n).rules)
    (hkey : ρ.key = x.1.rule) (hgen : ρ.generation = x.1.ruleGeneration) {o : CandidateObject}
    {okey : ObjectKey} (hobj : x.1.object = okey) (hog : x.1.objectGeneration = o.generation)
    (ho : ∀ o', o' ∈ Action.handed acts → o'.key = .ok okey → o'.generation = o.generation → o' = o)
    (r : Registry) : x.2 = r.judge ρ.predicate o := by
  obtain ⟨⟨k, g, ok', og⟩, out⟩ := x
  simp only at hkey hgen hobj hog ⊢
  subst hkey hgen hobj hog
  exact Witnessed.eq_judge hspec hn h.ok.keys hρ (h.compiled ρ hρ) ho r (h.cache _ hx)

/-- A rule write keeps the invariant. -/
theorem MemoAt.succ_follows (h : MemoAt start acts n)
    (hok : Engine.RegistryOk (reach start acts (n + 1)))
    (hfol : Follows (reach start acts n) (reach start acts (n + 1))) : MemoAt start acts (n + 1) where
  ok := hok
  selector := hfol.compiler.trans h.selector
  compiled ρ hρ := by
    rcases hfol.rules ρ hρ with hρ | hc
    · exact h.compiled ρ hρ
    · obtain ⟨m, hm, hp⟩ := compile_selector h.selector hc
      exact ⟨m, hm, hp⟩
  cache x hx := by
    -- a kept outcome's rule stays registered
    obtain ⟨hx, hc⟩ := hfol.cache x hx
    have hwit := h.cache x hx
    exact hwit.succ (hc hwit.contains)

/-- A call that keeps the rules and the compiler keeps the invariant when the outcomes it leaves
cached are witnessed at the point before it. -/
theorem MemoAt.succ_of_rules (h : MemoAt start acts n)
    (hok : Engine.RegistryOk (reach start acts (n + 1)))
    (hr : (reach start acts (n + 1)).rules = (reach start acts n).rules)
    (hcomp : (reach start acts (n + 1)).compiler = (reach start acts n).compiler)
    (hcache : (reach start acts (n + 1)).cache.Every
      (Witnessed (reach start acts) (· ∈ Action.handed acts) n)) :
    MemoAt start acts (n + 1) where
  ok := hok
  selector := hcomp.trans h.selector
  compiled ρ hρ := h.compiled ρ (hr ▸ hρ)
  cache x hx := by
    have hc := (hcache x hx).contains
    refine (hcache x hx).succ ?_
    unfold contains at hc ⊢
    rw [hr]
    exact hc

/-- Matching an object of the run keeps the invariant: through right outcomes the match is
fresh, and the outcomes it stores are witnessed. -/
theorem MemoAt.findMatches (hspec : GenerationFixesSpec (reach start acts) acts.length)
    (hobj : GenerationFixesObject (· ∈ Action.handed acts)) (h : MemoAt start acts n)
    (hn : n < acts.length) {o : CandidateObject} {skip : Bool}
    (hact : acts[n] = .findMatches o skip) : MemoAt start acts (n + 1) := by
  have hsucc : reach start acts (n + 1) = ((reach start acts n).findMatches o skip).2 := by
    rw [reach_succ start hn, hact]
    rfl
  have heq := findMatches_eq (reach start acts n) o skip
  rw [← hsucc] at heq
  have hho : o ∈ Action.handed acts :=
    List.mem_flatMap.2 ⟨acts[n], List.getElem_mem hn, by simp [hact, Action.objects]⟩
  refine h.succ_of_rules (h.ok.of_eq (by rw [heq]) (by rw [heq]) (by rw [heq])) (by rw [heq])
    (by rw [heq]) ?_
  cases hk : o.key with
  | error e =>
    -- an object without a key is not matched
    have hsame : ((reach start acts n).findMatches o skip).2 = reach start acts n := by
      unfold Registry.findMatches
      rw [hk]
    rw [hsucc, hsame]
    exact h.cache
  | ok okey =>
    rw [hsucc]
    refine (findMatches_of_every hk h.cache (fun ρ hρ out => ⟨fun hw => ?_, ?_⟩) skip).2
    · exact Witnessed.eq_judge hspec (Nat.le_of_lt hn) h.ok.keys hρ (h.compiled ρ hρ)
        (fun o' ho' hk' hg' => hobj o' o ho' hho okey hk' hk hg') _ hw
    · rintro rfl
      exact witnessed_judge h.ok.keys hρ (h.compiled ρ hρ) hho hk _

/-- Every call keeps the invariant. -/
theorem MemoAt.succ (hspec : GenerationFixesSpec (reach start acts) acts.length)
    (hobj : GenerationFixesObject (· ∈ Action.handed acts)) (h : MemoAt start acts n)
    (hn : n < acts.length) : MemoAt start acts (n + 1) := by
  have hsucc := reach_succ start hn
  cases hact : acts[n] with
  | add d now =>
    rw [hact] at hsucc
    exact h.succ_follows (by rw [hsucc]; exact h.ok.submit (by decide) d now)
      (by rw [hsucc]; exact Follows.submit h.ok _ d now)
  | update d now =>
    rw [hact] at hsucc
    exact h.succ_follows (by rw [hsucc]; exact h.ok.submit (by decide) d now)
      (by rw [hsucc]; exact Follows.submit h.ok _ d now)
  | delete d =>
    rw [hact] at hsucc
    exact h.succ_follows (by rw [hsucc]; exact h.ok.delete d)
      (by rw [hsucc]; exact Follows.delete h.ok d)
  | resync listing now =>
    rw [hact] at hsucc
    exact h.succ_follows (by rw [hsucc]; exact h.ok.resync listing now)
      (by rw [hsucc]; exact Follows.resync h.ok listing now)
  | pop handled =>
    -- a pop touches the change queue only
    rw [hact] at hsucc
    exact h.succ_of_rules (by rw [hsucc]; exact h.ok.pop handled) (by rw [hsucc]; rfl)
      (by rw [hsucc]; rfl) (by rw [hsucc]; exact h.cache)
  | findMatches o skip => exact h.findMatches hspec hobj hn hact

theorem MemoAt.upto (hspec : GenerationFixesSpec (reach start acts) acts.length)
    (hobj : GenerationFixesObject (· ∈ Action.handed acts)) (h0 : MemoAt start acts 0) :
    ∀ n ≤ acts.length, MemoAt start acts n
  | 0, _ => h0
  | n + 1, hn => (MemoAt.upto hspec hobj h0 n (by omega)).succ hspec hobj (by omega)

end Run

theorem MemoAt.start (capacity refillMs cacheCapacity : Nat) (acts : List Action) :
    MemoAt (create .selector capacity refillMs cacheCapacity) acts 0 := by
  refine ⟨⟨by simp [reach, create], ⟨_, FeedInv.start _ _ _ _⟩⟩, rfl, fun ρ hρ => ?_, fun x hx => ?_⟩
  · simp [reach, create] at hρ
  · simp [reach, create, MatchCache.empty] at hx

/-- In every run of registry calls from the registry as created with the selector compiler in
which, while a rule key stays registered, its rules of one generation have one spec, and the
objects matched with one key and generation are one object: every cached outcome, under the key
and generation of a registered rule and for a matched object of its key and generation, is that
rule's fresh outcome on the object; and every object that the matched objects of its key and
generation equal gets from a match through the cache what a match that skips the cache gives,
the same rules in the same order or the same error. -/
theorem cached_matches_agree_fresh (capacity refillMs cacheCapacity : Nat) (acts : List Action)
    (hspec : GenerationFixesSpec (reach (create .selector capacity refillMs cacheCapacity) acts)
      acts.length)
    (hobj : GenerationFixesObject (· ∈ Action.handed acts)) :
    let r := acts.foldl act (create .selector capacity refillMs cacheCapacity)
    (∀ x ∈ r.cache.entries, ∀ ρ, r.get? x.1.rule = some ρ → ρ.generation = x.1.ruleGeneration →
      ∀ o ∈ Action.handed acts, o.key = .ok x.1.object → o.generation = x.1.objectGeneration →
        x.2 = r.judge ρ.predicate o) ∧
    ∀ o, GenerationFixesObject (fun o' => o' ∈ Action.handed acts ∨ o' = o) →
      (r.findMatches o false).1 = (r.findMatches o true).1 := by
  intro r
  have hM := MemoAt.upto hspec hobj (MemoAt.start capacity refillMs cacheCapacity acts)
    acts.length (Nat.le_refl _)
  have hr : reach (create .selector capacity refillMs cacheCapacity) acts acts.length = r :=
    reach_length _ acts
  -- a rule registered under a key is the rule of that key
  have hreg : ∀ {k : ObjectKey} {ρ : Rule}, r.get? k = some ρ → ρ ∈ r.rules ∧ ρ.key = k :=
    fun hρ => ⟨List.mem_of_find?_eq_some hρ, by simpa using List.find?_some hρ⟩
  refine ⟨fun x hx ρ hρ hgen o ho hk hog => ?_, fun o ho => ?_⟩
  · obtain ⟨hmem, hkey⟩ := hreg hρ
    rw [← hr] at hx hmem
    exact hM.right hspec (Nat.le_refl _) hx hmem hkey hgen rfl hog.symm
      (fun o' ho' hk' hg' => hobj o' o ho' ho _ hk' hk hg') r
  · cases hk : o.key with
    | error e =>
      -- an object without a key fails alike either way
      unfold Registry.findMatches
      rw [hk]
    | ok okey =>
      have hnd : (r.rules.map (·.key)).Nodup := hr ▸ hM.ok.keys
      -- the outcomes cached for the object are right, so both matches are fresh
      have hright : ∀ x ∈ r.cache.entries, x.1.object = okey → x.1.objectGeneration = o.generation →
          ∀ ρ ∈ r.rules, ρ.key = x.1.rule → ρ.generation = x.1.ruleGeneration →
            x.2 = r.judge ρ.predicate o := by
        intro x hx hobj' hog ρ hρ hkey hgen
        rw [← hr] at hx hρ
        exact hM.right hspec (Nat.le_refl _) hx hρ hkey hgen hobj' hog
          (fun o' ho' hk' hg' => ho o' o (.inl ho') (.inr rfl) okey hk' hk hg') r
      rw [findMatches_of_right hnd hk hright false, findMatches_of_right hnd hk hright true]

/-- A run that keeps an outdated outcome cached: an object is matched through the cache, then
`billing/r1` is edited to generation 2 and the object matched again, while the outcome of
generation 1 stays cached; the rule is then deleted, which drops both of its outcomes, and added
again at generation 1, so the last match serves the outcome of `billing/r2` from the cache and
judges `billing/r1` afresh. -/
theorem cached_matches_agree_fresh_after_rule_edit :
    let r1 : Definition :=
      { metadata := { ns := some "billing", name := "r1", uid := "uid-r1", generation := 1 }
        spec := { filters := [{ namespaces := some ["ns"] }] } }
    let r1' : Definition :=
      { metadata := { ns := some "billing", name := "r1", uid := "uid-r1", generation := 2 }
        spec := { filters := [{ namespaces := some ["other"] }] } }
    let r2 : Definition :=
      { metadata := { ns := some "billing", name := "r2", uid := "uid-r2", generation := 1 }
        spec := { kind := some "Pod", filters := [{ kind := some "Pod" }] } }
    let b : CandidateObject := { metadata := { ns := some "ns", name := "b", generation := 3 }, kind := "Pod" }
    let start := create .selector 10 5000 64
    let acts := [Action.add r1 0, .add r2 0, .findMatches b false, .update r1' 0, .findMatches b false,
      .delete r1', .add r1 0, .findMatches b false]
    let r := acts.foldl act start
    GenerationFixesSpec (reach start acts) acts.length ∧ GenerationFixesObject (· ∈ Action.handed acts) ∧
      ((acts.take 5).foldl act start).cache.entries.map (fun x => (x.1.rule, x.1.ruleGeneration)) =
        [(.inNamespace "billing" "r2", 1), (.inNamespace "billing" "r1", 2),
          (.inNamespace "billing" "r1", 1)] ∧
      (r.findMatches b false).1.toOption.map (·.map (·.key)) =
        some [.inNamespace "billing" "r2", .inNamespace "billing" "r1"] ∧
      (∀ x ∈ r.cache.entries, ∀ ρ, r.get? x.1.rule = some ρ → ρ.generation = x.1.ruleGeneration →
        ∀ o ∈ Action.handed acts, o.key = .ok x.1.object → o.generation = x.1.objectGeneration →
          x.2 = r.judge ρ.predicate o) ∧
      ∀ o, GenerationFixesObject (fun o' => o' ∈ Action.handed acts ∨ o' = o) →
        (r.findMatches o false).1 = (r.findMatches o true).1 := by
  intro r1 r1' r2 b start acts r
  have hspec : GenerationFixesSpec (reach start acts) acts.length :=
    generationFixesSpec_of_written rfl (by decide +kernel)
  -- the run matches one object only
  have hobj : GenerationFixesObject (· ∈ Action.handed acts) := by
    intro o₁ o₂ h₁ h₂ _ _ _ _
    simp [Action.handed, acts, Action.objects] at h₁ h₂
    rw [h₁, h₂]
  exact ⟨hspec, hobj, by decide +kernel, by decide +kernel,
    cached_matches_agree_fresh 10 5000 64 acts hspec hobj⟩

end Registry

end MeterMatch
