import MeterMatch.Proofs.ListingIndex
import MeterMatch.Proofs.FreshBuckets
import MeterMatch.Proofs.Reconciliation
import MeterMatch.Worker.Run

/-! # The one-shot run logs the match relation

With `--once`, the worker loads the rule directory into a created registry, drains the rule
changes into the empty table, replaces the tracked objects by the snapshot and logs every
association. When every loaded definition has a key and compiles, and no two of them share a key
or a writer, what it logs is given by the definitions and the snapshot alone:

* `Registry.verdicts_fresh`: on a registry with no rules, each listed definition is admitted as
  an addition, its writer's bucket being new and full; so reconciling the created registry
  stores one compiled rule per definition, in listing order (`Registry.resync_created`).
* `Engine.drain_of_empty`: from an empty table, draining cannot fail, since a failure drops a
  tracked key; and it keeps the rules (`Engine.drain_rules`).
* `Worker.once_logs_match_relation`: the run exits with status 0 and logs, after its two summary
  lines, one association per key whose last listed object the definitions accept, in the order
  the keys last entered the table, each with that object and the keys of the accepting
  definitions.
-/

namespace MeterMatch

/-- A limiter of token buckets that start full and refill: each new writer's first write is
taken. -/
structure Limiter.Refilling (l : Limiter Binary64) : Prop where
  arith : l.arith = Binary64.tokens
  capacity : 0 < l.capacity
  refillMs : 0 < l.refillMs

theorem Limiter.Refilling.empty (capacity refillMs : Nat) :
    (Limiter.empty Binary64.tokens capacity refillMs).Refilling :=
  ⟨rfl, Limiter.empty_capacity_pos _ _ _, Limiter.empty_refillMs_pos _ _ _⟩

theorem Limiter.Refilling.allow {l : Limiter Binary64} (h : l.Refilling) (uid : String)
    (now : Nat) : (l.allow uid now).2.Refilling := by
  obtain ⟨b, hb⟩ := l.allow_snd uid now
  rw [hb]
  refine ⟨?_, ?_, ?_⟩
  · rw [Limiter.setBucket_arith]
    exact h.arith
  · rw [Limiter.setBucket_capacity]
    exact h.capacity
  · rw [Limiter.setBucket_refillMs]
    exact h.refillMs

namespace Registry

/-! ## Reconciling a registry with no rules -/

/-- On a registry with the selector compiler and no rule of its key, a definition that compiles is
admitted as an addition when its writer's bucket is new. -/
theorem verdict_fresh {r : Registry} (hcomp : r.compiler = .selector) (hl : r.limiter.Refilling)
    {d : Definition} {key : ObjectKey} {m : Matcher} (hk : d.key = .ok key)
    (hm : d.compile = .ok m) (hget : r.get? key = none)
    (hnew : r.limiter.bucket? (d.limiterId key) = none) (now : Nat) :
    r.verdict now d =
      (.admitted ⟨key, d, .selector m⟩ true, (r.limiter.allow (d.limiterId key) now).2) := by
  have hc : r.compile key d = .ok (.selector m) := by
    unfold compile
    rw [hcomp, hm]
  have hal := Limiter.allow_fresh r.limiter hl.arith hl.capacity hl.refillMs hnew now
  unfold verdict
  simp only [hk, hget, hc, hal, Option.any_none, Option.isNone_none, Bool.false_eq_true,
    ↓reduceIte]

/-- Definitions that all compile, none sharing a writer, each writer's bucket new: on a registry
with the selector compiler and no rules, every one of them is admitted as an addition, in order,
as a compiled rule. -/
theorem verdicts_fresh (now : Nat) :
    ∀ (defs : List Definition) (r : Registry), r.rules = [] → r.compiler = .selector →
      r.limiter.Refilling →
      (∀ d ∈ defs, ∃ key m, d.key = .ok key ∧ d.compile = .ok m ∧
        r.limiter.bucket? (d.limiterId key) = none) →
      (defs.filterMap fun d => d.key.toOption.map d.limiterId).Nodup →
      ((r.verdicts now defs).filterMap Verdict.added?).map (·.definition) = defs ∧
        ∀ ρ ∈ (r.verdicts now defs).filterMap Verdict.added?, ρ.Compiled
  | [], _, _, _, _, _, _ => ⟨rfl, fun _ h => by cases h⟩
  | d :: rest, r, hrules, hcomp, hl, hdefs, hwriters => by
    obtain ⟨key, m, hk, hm, hnew⟩ := hdefs d List.mem_cons_self
    have hv := verdict_fresh hcomp hl hk hm (by simp [get?, hrules]) hnew now
    simp only [List.filterMap_cons, hk, Except.toOption, Option.map_some] at hwriters
    obtain ⟨hother, hwriters'⟩ := List.nodup_cons.1 hwriters
    -- the later writers are other writers, so their buckets are still new
    have hdefs' : ∀ d' ∈ rest, ∃ key' m', d'.key = .ok key' ∧ d'.compile = .ok m' ∧
        (r.limiter.allow (d.limiterId key) now).2.bucket? (d'.limiterId key') = none := by
      intro d' hd'
      obtain ⟨key', m', hk', hm', hnew'⟩ := hdefs d' (List.mem_cons_of_mem _ hd')
      have hne : d'.limiterId key' ≠ d.limiterId key := fun he =>
        hother (List.mem_filterMap.2 ⟨d', hd', by simp [hk', he]⟩)
      exact ⟨key', m', hk', hm', by rw [Limiter.bucket?_allow_of_ne _ hne now, hnew']⟩
    obtain ⟨ih, ihc⟩ := verdicts_fresh now rest
      { r with limiter := (r.limiter.allow (d.limiterId key) now).2 } hrules hcomp (hl.allow _ now)
      hdefs' hwriters'
    rw [verdicts_cons, hv]
    simp only [List.filterMap_cons, Verdict.added?, List.map_cons, List.mem_cons]
    refine ⟨by rw [ih], ?_⟩
    rintro ρ (rfl | hρ)
    · exact ⟨m, hm, rfl⟩
    · exact ihc ρ hρ

/-- Reconciling the created registry with definitions that all have a key and compile, none
sharing a key or a writer, stores one compiled rule per definition, in listing order, each under
the key its definition derives. -/
theorem resync_created (capacity refillMs cacheCapacity now : Nat) (defs : List Definition)
    (hdefs : ∀ d ∈ defs, ∃ key m, d.key = .ok key ∧ d.compile = .ok m)
    (hkeys : (defs.filterMap (·.key.toOption)).Nodup)
    (hwriters : (defs.filterMap fun d => d.key.toOption.map d.limiterId).Nodup) :
    ((create .selector capacity refillMs cacheCapacity).resync defs now).2.rules.map
        (·.definition) = defs ∧
      ∀ ρ ∈ ((create .selector capacity refillMs cacheCapacity).resync defs now).2.rules,
        ρ.definition.key = .ok ρ.key ∧ ρ.Compiled := by
  have hkeyed₀ : (create .selector capacity refillMs cacheCapacity).Keyed := fun ρ hρ => by
    simp [create] at hρ
  generalize hs : defs.foldl (Reconciling.visit now)
    { registry := create .selector capacity refillMs cacheCapacity } = s
  obtain ⟨hrules, hkeyed, hopen, hseen, -, -, hlisted⟩ :=
    visits_reconcile _ hkeyed₀ rfl defs hkeys now hs
  obtain ⟨hres, -⟩ := resync_of_visits hs hkeyed hopen
  obtain ⟨hdefs', hcompiled⟩ := verdicts_fresh now defs
    (create .selector capacity refillMs cacheCapacity) rfl rfl
    (Limiter.Refilling.empty capacity refillMs)
    (fun d hd => by
      obtain ⟨key, m, hk, hm⟩ := hdefs d hd
      exact ⟨key, m, hk, hm, Limiter.empty_bucket? _ _ _ _⟩)
    hwriters
  -- with no rules registered, the rules after the pass are the additions, all listed
  have hadded : ((create .selector capacity refillMs cacheCapacity).resync defs now).2.rules =
      ((create .selector capacity refillMs cacheCapacity).verdicts now defs).filterMap
        Verdict.added? := by
    rw [hres, hrules, hseen]
    simp only [create, List.map_nil, List.nil_append]
    exact List.filter_eq_self.2 hlisted
  refine ⟨by rw [hadded]; exact hdefs',
    fun ρ hρ => ⟨Keyed.resync hkeyed₀ defs now ρ hρ, ?_⟩⟩
  rw [hadded] at hρ
  exact hcompiled ρ hρ

end Registry

namespace Engine

/-! ## Draining into an empty table -/

variable {e : Engine}

theorem drain_rules (e : Engine) : e.drain.2.registry.rules = e.registry.rules :=
  drain_induction (fun e' => e'.registry.rules = e.registry.rules)
    (fun e' h => (processNext_rules e').trans h) rfl

/-- From an empty table, draining cannot fail, since a failure drops a tracked key; the table
stays empty and the association queue open. -/
theorem drain_of_empty (hs : Sound e) (hr : Retryable e) (hempty : e.tracked.items = []) :
    (∃ n, e.drain.1 = .ok n) ∧ e.drain.2.tracked.items = [] ∧ TableOk e.drain.2.tracked ∧
      e.drain.2.feed.closed = false := by
  obtain ⟨hn, hfail, -⟩ := drain_progress hs hr
  have huntracked : ∀ k, e.tracked.get? k = none := fun k => by
    rw [Indexed.get?_eq, hempty]
    rfl
  refine ⟨?_, ?_, hn.table, hn.feedOpen⟩
  · cases hres : e.drain.1 with
    | ok n => exact ⟨n, rfl⟩
    | error err =>
      obtain ⟨k, hk, -⟩ := hfail err hres
      exact absurd (huntracked k) hk
  · -- every key tracked after the drain was tracked before
    refine List.eq_nil_iff_forall_not_mem.2 fun x hx => ?_
    have hk : x.1 ∈ e.drain.2.tracked.items.map (·.1) := List.mem_map_of_mem hx
    exact hn.keys x.1 (mem_tracked_keys.1 hk) (huntracked x.1)

end Engine

/-- Syncing reconciles the registry with the definitions the directory loads. -/
theorem Loader.sync_eq (l : Loader) (t : FileTree) (r : Registry) (now : Nat) :
    l.sync t r now = ((r.resync (l.loadAll t).2.list now).1, (l.loadAll t).2,
      (r.resync (l.loadAll t).2.list now).2) :=
  rfl

/-- An `Except` is the value its option holds. -/
theorem Except.eq_ok_of_toOption {ε α : Type} {x : Except ε α} {a : α} (h : x.toOption = some a) :
    x = .ok a := by
  cases x <;> simp_all [Except.toOption]

/-- An `Except` whose option holds a value is that value. -/
theorem Except.exists_ok_of_toOption {ε α : Type} {x : Except ε α} (h : x.toOption.isSome = true) :
    ∃ a, x = .ok a := by
  cases x <;> simp_all [Except.toOption]

namespace Worker

/-! ## The one-shot run -/

/-- Distinct keys, all derived, are distinct once read off. -/
theorem keys_toOption_nodup {defs : List Definition} (h : (defs.map (·.key)).Nodup) :
    (defs.filterMap (·.key.toOption)).Nodup := by
  have hnd := h.filterMap (f := Except.toOption) fun a a' b ha ha' => by
    cases a <;> cases a' <;> simp_all [Except.toOption]
  rwa [List.filterMap_map] at hnd

/-- A one-shot run whose settings are valid, whose rule directory exists and loads definitions
that all have a key and compile, none sharing a key or a writer, and whose snapshot reads, exits
with status 0 and logs two summary lines and then one association per key whose last listed
object every definition judges and at least one accepts: that object, with the keys of the
accepting definitions in load order. The associations come in the order their keys last entered
the table. -/
theorem once_logs_match_relation (files : FileTree) (args : List String) (env : Env) (o : Options)
    (loaded : List Definition) (objects : List CandidateObject)
    (hparse : Invocation.parse args (environment files env) = .run o) (honce : o.once = true)
    (hconfig : (EngineConfig.fromEnv (environment files env)).validate = .ok ())
    (hrulesDir : files.exists_ (Path.ofText o.rulesDir) = true)
    (hloaded : (({ dir := Path.ofText o.rulesDir } : Loader).loadAll files).2.list = loaded)
    (hcompile : ∀ d ∈ loaded, ∃ key m, d.key = .ok key ∧ d.compile = .ok m)
    (hkeys : (loaded.map (·.key)).Nodup)
    (hwriters : (loaded.filterMap fun d => d.key.toOption.map d.limiterId).Nodup)
    (hobjects : files.objects (Path.ofText o.objectsDir) = .ok objects) :
    ∃ (first second : String) (table : List Association),
      run files args env =
          { exit := some 0, log := first :: second :: table.map associationLine } ∧
      (table.map (·.key)).Nodup ∧
      (∀ k, k ∈ table.map (·.key) ↔
        ∃ x, lastListed objects k = some x ∧ accepts loaded x = true) ∧
      (∀ a ∈ table,
        lastListed objects a.key = some a.object ∧ acceptors a.object loaded = some a.rules) ∧
      table.map (·.key) = entryOrder (listingWrites loaded objects) := by
  let config := EngineConfig.fromEnv (environment files env)
  let created := Registry.create .selector config.capacity config.refillMs config.cacheCapacity
  let start := Engine.create (created.resync loaded 0).2 config.retryBackoffMs
  -- the rules: one compiled rule per loaded definition, in load order
  obtain ⟨hdefs, hcompiled⟩ := Registry.resync_created config.capacity config.refillMs
    config.cacheCapacity 0 loaded hcompile (keys_toOption_nodup hkeys) hwriters
  have hs₀ := Engine.Sound.start .selector config.capacity config.refillMs config.cacheCapacity
    config.retryBackoffMs
  have hs : Engine.Sound start := ⟨hs₀.table, hs₀.registry.resync loaded 0⟩
  have hr : Engine.Retryable start := ⟨rfl, (Engine.Retryable.start .selector config.capacity
    config.refillMs config.cacheCapacity config.retryBackoffMs).keyed.resync loaded 0⟩
  -- the drain succeeds into the empty table, keeping the rules
  obtain ⟨⟨n, hn⟩, hempty, htable, hfeed⟩ := Engine.drain_of_empty hs hr rfl
  have hready : Engine.Ready loaded start.drain.2 :=
    ⟨htable, hfeed, by rw [Engine.drain_rules]; exact hdefs,
      by rw [Engine.drain_rules]; exact hcompiled,
      by rw [Engine.drain_rules]; exact hs.registry.keys⟩
  -- the table the snapshot leaves
  let final := (start.drain.2.replace objects).2
  have hsettled : Settled loaded objects final.tracked.items :=
    Engine.replace_settles hready hempty objects
  have hfinal : Engine.Sound final := (hs.step .drain).step (.replace objects)
  have hkeysEq : final.tracked.list.map (·.key) = final.tracked.items.map (·.1) := by
    rw [Indexed.list, List.map_map]
    exact List.map_congr_left fun x hx => (hsettled.entries x hx).1
  let first := loadedLine (created.resync loaded 0).2 (created.resync loaded 0).1
  let second := indexedLine final (start.drain.2.replace objects).1
  have hrun : run files args env =
      { exit := some 0, log := first :: second :: final.tracked.list.map associationLine } := by
    have hdrain : start.drain = (.ok n, start.drain.2) := Prod.ext hn rfl
    have hreplace : start.drain.2.replace objects =
        ((start.drain.2.replace objects).1, final) := rfl
    unfold run session
    simp only [hparse, hconfig, hrulesDir, if_true, Loader.sync_eq, hloaded]
    rw [hdrain]
    dsimp only
    rw [hobjects]
    dsimp only
    rw [hreplace]
    simp only [honce, if_true]
    rfl
  refine ⟨_, _, final.tracked.list, hrun, ?_, ?_, ?_, ?_⟩
  · rw [hkeysEq]
    exact hfinal.table.wf.keys
  · rw [hkeysEq]
    exact hsettled.present
  · intro a ha
    obtain ⟨x, hx, rfl⟩ := List.mem_map.1 ha
    obtain ⟨hkey, hlast, hacc⟩ := hsettled.entries x hx
    rw [hkey]
    exact ⟨hlast, hacc⟩
  · rw [hkeysEq]
    exact hsettled.order

/-- A one-shot run over two rule files and a snapshot of two files holding four objects. `ns/x`
is listed twice, first with the label `billing/r1` asks for and last without it; `other/y` is
outside the namespace of `billing/r2` and has no label, so no rule meters it; `ns/z` has the label
and is in the namespace. The log holds one line per metered key, in the order the keys entered
the table, each with the rules that meter the key's last listed object, in file order. -/
theorem once_logs_match_relation_snapshot :
    let a := "kind: Pod\nmetadata:\n  namespace: ns\n  name: x\n  labels:\n    app: foo\n---\n" ++
      "kind: Pod\nmetadata:\n  namespace: other\n  name: y\n"
    let b := "kind: Pod\nmetadata:\n  namespace: ns\n  name: z\n  labels:\n    app: foo\n---\n" ++
      "kind: Pod\nmetadata:\n  namespace: ns\n  name: x\n  labels:\n    app: bar\n"
    let files : FileTree := { entries := [(["data"], .dir), (["data", "meterdefs"], .dir),
      (["data", "meterdefs", "r1.yaml"], .file ("metadata:\n  namespace: billing\n  name: r1\n" ++
        "  uid: uid-r1\n  generation: 1\nspec:\n  kind: Pod\n  resourceFilters:\n" ++
        "    - label:\n        labelSelector:\n          matchLabels:\n            app: foo\n").toUTF8.toList),
      (["data", "meterdefs", "r2.yaml"], .file ("metadata:\n  namespace: billing\n  name: r2\n" ++
        "  uid: uid-r2\n  generation: 1\nspec:\n  resourceFilters:\n" ++
        "    - namespace:\n        names:\n          - ns\n").toUTF8.toList),
      (["data", "objects"], .dir),
      (["data", "objects", "a.yaml"], .file a.toUTF8.toList),
      (["data", "objects", "b.yaml"], .file b.toUTF8.toList)] }
    ∃ (first second : String) (table : List Association),
      run files ["--once"] [] =
          { exit := some 0, log := first :: second :: table.map associationLine } ∧
      table.map (·.key) = [.inNamespace "ns" "x", .inNamespace "ns" "z"] ∧
      table.map (·.rules) =
        [[.inNamespace "billing" "r2"], [.inNamespace "billing" "r1", .inNamespace "billing" "r2"]] := by
  intro a b files
  let r1 : Definition :=
    { metadata := { ns := some "billing", name := "r1", uid := "uid-r1", generation := 1 }
      spec := { kind := some "Pod", filters := [{ labels := some { matchLabels := ⟨[("app", "foo")]⟩ } }] } }
  let r2 : Definition :=
    { metadata := { ns := some "billing", name := "r2", uid := "uid-r2", generation := 1 }
      spec := { filters := [{ namespaces := some ["ns"] }] } }
  let x : CandidateObject :=
    { kind := "Pod", metadata := { ns := some "ns", name := "x", labels := ⟨[("app", "foo")]⟩ } }
  let y : CandidateObject := { kind := "Pod", metadata := { ns := some "other", name := "y" } }
  let z : CandidateObject :=
    { kind := "Pod", metadata := { ns := some "ns", name := "z", labels := ⟨[("app", "foo")]⟩ } }
  let x' : CandidateObject :=
    { kind := "Pod", metadata := { ns := some "ns", name := "x", labels := ⟨[("app", "bar")]⟩ } }
  have hrules : Path.ofText "data/meterdefs" = ["data", "meterdefs"] := by decide +kernel
  have hobjects : Path.ofText "data/objects" = ["data", "objects"] := by decide +kernel
  -- the definitions in file order, and the objects in file and document order
  have hloaded : (({ dir := ["data", "meterdefs"] } : Loader).loadAll files).2.list = [r1, r2] := by
    decide +kernel
  have hsnapshot : files.objects ["data", "objects"] = .ok [x, y, z, x'] := by
    decide +kernel
  have hcompile : ∀ d ∈ [r1, r2], ∃ key m, d.key = .ok key ∧ d.compile = .ok m := by
    intro d hd
    simp only [List.mem_cons, List.not_mem_nil, or_false] at hd
    rcases hd with rfl | rfl
    · obtain ⟨key, hk⟩ := Except.exists_ok_of_toOption (x := r1.key) (by decide +kernel)
      obtain ⟨m, hm⟩ := Except.exists_ok_of_toOption (x := r1.compile) (by decide +kernel)
      exact ⟨key, m, hk, hm⟩
    · obtain ⟨key, hk⟩ := Except.exists_ok_of_toOption (x := r2.key) (by decide +kernel)
      obtain ⟨m, hm⟩ := Except.exists_ok_of_toOption (x := r2.compile) (by decide +kernel)
      exact ⟨key, m, hk, hm⟩
  obtain ⟨first, second, table, hrun, -, -, hlines, horder⟩ := once_logs_match_relation files
    ["--once"] []
    { rulesDir := "data/meterdefs", objectsDir := "data/objects", watch := false, once := true }
    [r1, r2] [x, y, z, x'] (by decide +kernel) rfl (Except.eq_ok_of_toOption (by decide +kernel))
    (by rw [hrules]; decide +kernel) (by rw [hrules]; exact hloaded) hcompile (by decide +kernel)
    (by decide +kernel) (by rw [hobjects]; exact hsnapshot)
  have hkeys : table.map (·.key) = [.inNamespace "ns" "x", .inNamespace "ns" "z"] := by
    rw [horder]
    decide +kernel
  refine ⟨first, second, table, hrun, hkeys, ?_⟩
  -- the object listed last under each key, and the rules that accept it
  have hlast : lastListed [x, y, z, x'] (.inNamespace "ns" "x") = some x' ∧
      lastListed [x, y, z, x'] (.inNamespace "ns" "z") = some z := by
    constructor <;> decide +kernel
  have hacc : acceptors x' [r1, r2] = some [.inNamespace "billing" "r2"] ∧
      acceptors z [r1, r2] = some [.inNamespace "billing" "r1", .inNamespace "billing" "r2"] := by
    constructor <;> decide +kernel
  -- each line holds the acceptors of the last object listed under its key
  have hline : ∀ line ∈ table, ∀ o, lastListed [x, y, z, x'] line.key = some o →
      acceptors o [r1, r2] = some line.rules := by
    intro line hline o ho
    obtain ⟨hobj, hacceptors⟩ := hlines line hline
    rwa [Option.some.inj (hobj.symm.trans ho)] at hacceptors
  obtain ⟨lx, lz, rfl⟩ : ∃ lx lz, table = [lx, lz] := by
    rcases table with _ | ⟨lx, _ | ⟨lz, _ | ⟨c, t⟩⟩⟩ <;> simp at hkeys
    exact ⟨lx, lz, rfl⟩
  simp only [List.map_cons, List.map_nil, List.cons.injEq, and_true] at hkeys ⊢
  have hx := hline lx List.mem_cons_self x' (by rw [hkeys.1]; exact hlast.1)
  have hz := hline lz (List.mem_cons_of_mem _ List.mem_cons_self) z (by rw [hkeys.2]; exact hlast.2)
  exact ⟨Option.some.inj (hx.symm.trans hacc.1), Option.some.inj (hz.symm.trans hacc.2)⟩

end Worker

end MeterMatch
