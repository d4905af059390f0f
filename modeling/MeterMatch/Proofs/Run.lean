import MeterMatch.Proofs.Propagation
import MeterMatch.Proofs.RuleFeed

/-! # Runs of the engine

A run is any sequence of the calls the engine's users make (`Engine.Op`): rule writes and
reconciliations, object writes, steps of the coordinator, time passing, and pops by the consumer
of the association change queue. Each call may succeed, be rate limited or fail; a run keeps
only the engine it leaves (`Engine.step`).

* `Engine.Sound`: the table is as the engine keeps it, the registry holds one rule per key, and
  its change queue keeps deletes and is faithful to its definitions for some consumer. Every
  call keeps this (`Engine.Sound.step`), from the engine as it is created on.
* `Engine.Sound.step_induction`: what the rule writes, the applies of handed or tracked objects,
  the untracks, the steps of the coordinator, and the moves of the clock and of the association
  queue keep, every call keeps. Each invariant of a run is proved from these cases alone; a call
  that writes no rules needs no rule cases (`Engine.Sound.step_induction_fixed`).
* `Engine.after`: the engine after the first `n` calls of a run, for invariants that speak of
  the points of a run.
-/

namespace MeterMatch

namespace Engine

/-- A call on the engine. -/
inductive Op where
  | addRule (d : Definition)
  | updateRule (d : Definition)
  | deleteRule (d : Definition)
  | resyncRules (listing : List Definition)
  | add (o : CandidateObject)
  | update (o : CandidateObject)
  | delete (o : CandidateObject)
  | deleteKey (key : ObjectKey)
  | rematch (key : ObjectKey) (skip : Bool)
  | rematchAll (skip : Bool)
  | resync
  | replace (listing : List CandidateObject)
  | processNext
  | drain
  | run (timeoutMs : Nat)
  | advance (ms : Nat)
  | popFeed (handled : Bool)

/-- The objects a call hands to the engine to be matched. -/
def Op.objects : Op → List CandidateObject
  | .add o | .update o => [o]
  | .replace listing => listing
  | _ => []

/-- Whether a call writes rules. -/
def Op.writesRules : Op → Bool
  | .addRule _ | .updateRule _ | .deleteRule _ | .resyncRules _ => true
  | _ => false

/-- The engine after a call. -/
def step (e : Engine) : Op → Engine
  | .addRule d => (e.submit .added d).2
  | .updateRule d => (e.submit .updated d).2
  | .deleteRule d => (e.deleteRule d).2
  | .resyncRules listing => (e.resyncRules listing).2
  | .add o => (e.add o).2
  | .update o => (e.update o).2
  | .delete o => (e.delete o).2
  | .deleteKey key => (e.untrack key).2
  | .rematch key skip => (e.rematch key skip).2
  | .rematchAll skip => (e.rematchAll skip).2
  | .resync => e.resync.2
  | .replace listing => (e.replace listing).2
  | .processNext => e.processNext.2
  | .drain => e.drain.2
  | .run timeoutMs => (e.run timeoutMs).2
  | .advance ms => e.advance ms
  | .popFeed handled => { e with feed := (e.feed.popReady handled).2 }

/-- The registry holds one rule per key, and its change queue keeps deletes and is faithful to
its definitions for some consumer. -/
structure RegistryOk (r : Registry) : Prop where
  keys : (r.rules.map (·.key)).Nodup
  feed : ∃ M, Registry.FeedInv r M

/-- The invariant of every run. -/
structure Sound (e : Engine) : Prop where
  table : TableOk e.tracked
  registry : RegistryOk e.registry

/-! ## The registry -/

namespace RegistryOk

variable {r : Registry}

theorem submit (h : RegistryOk r) {kind : DeltaKind} (hk : kind ≠ .deleted) (d : Definition)
    (now : Nat) : RegistryOk (r.submit kind d now).2 := by
  refine ⟨?_, ?_⟩
  · rcases Registry.submit_cases r kind d now with he | ⟨key, p, q, -, -, -, -, he⟩ <;> rw [he]
    · exact h.keys
    · exact Registry.keys_place h.keys _
  · obtain ⟨M, hM⟩ := h.feed
    exact ⟨M, hM.submit hk d now⟩

theorem delete (h : RegistryOk r) (d : Definition) : RegistryOk (r.delete d).2 := by
  refine ⟨?_, ?_⟩
  · rcases Registry.delete_cases r d with he | ⟨key, q, -, -, -, he⟩ <;> rw [he]
    · exact h.keys
    · exact (List.filter_sublist.map _).nodup h.keys
  · obtain ⟨M, hM⟩ := h.feed
    exact ⟨M, hM.delete d⟩

theorem resync (h : RegistryOk r) (listing : List Definition) (now : Nat) :
    RegistryOk (r.resync listing now).2 :=
  Registry.resync_induction RegistryOk listing now (fun _ _ d hk h => h.submit hk d now)
    (fun _ d h => h.delete d)
    (fun _ h => ⟨h.keys, h.feed.imp fun _ hM => hM.of_eq (by simp) (by simp) rfl⟩) h

/-- A consumer's pop, handled or not, keeps the invariant. -/
theorem pop (h : RegistryOk r) (handled : Bool) :
    RegistryOk { r with changes := (r.changes.popReady handled).2 } := by
  obtain ⟨M, hM⟩ := h.feed
  exact ⟨h.keys, ⟨_, hM.call (.pop handled)⟩⟩

/-- The invariant reads only the rules and the change queue's pending deltas and policy. -/
theorem of_eq {r' : Registry} (h : RegistryOk r) (hr : r'.rules = r.rules)
    (hp : r'.changes.pending = r.changes.pending) (hpol : r'.changes.policy = r.changes.policy) :
    RegistryOk r' :=
  ⟨hr ▸ h.keys, h.feed.imp fun _ hM => hM.of_eq hp hpol hr⟩

end RegistryOk

/-! ## Each call -/

namespace Sound

variable {e : Engine}

/-- The invariant reads only the table and the registry's rules and pending changes. -/
theorem of_eq {e' : Engine} (h : Sound e) (ht : e'.tracked = e.tracked)
    (hr : e'.registry.rules = e.registry.rules)
    (hp : e'.registry.changes.pending = e.registry.changes.pending)
    (hpol : e'.registry.changes.policy = e.registry.changes.policy) : Sound e' :=
  ⟨ht ▸ h.table, h.registry.of_eq hr hp hpol⟩

theorem apply (h : Sound e) (o : CandidateObject) (skip : Bool) : Sound (e.apply o skip).2 := by
  have hreg := apply_registry e o skip
  exact ⟨h.table.apply o skip, h.registry.of_eq (by rw [hreg]) (by rw [hreg]) (by rw [hreg])⟩

theorem untrack (h : Sound e) (key : ObjectKey) : Sound (e.untrack key).2 :=
  ⟨h.table.untrack key, by rw [untrack_registry]; exact h.registry⟩

theorem processNext (h : Sound e) : Sound e.processNext.2 := by
  rcases processNext_cases e with ⟨-, he⟩ | ⟨d, rest, ht, he⟩
  · rw [he]
    exact h
  · -- the handler writes only the table and the cache, and the queue is then popped
    have htab := handle_induction (fun e' => TableOk e'.tracked) (fun _ => True)
      (fun _ o skip _ h' => h'.apply o skip) (fun _ _ _ _ => trivial)
      { e with registry := { e.registry with changes := rest } } d h.table
    have hreg := handle_registry { e with registry := { e.registry with changes := rest } } d
    have hpop := ChangeQueue.popReady_of_take ht
    rw [he]
    refine ⟨htab, (h.registry.pop
      (handle { e with registry := { e.registry with changes := rest } } d).1.isOk).of_eq
      (by rw [hreg]) ?_ ?_⟩ <;> simp [hpop]

theorem clock (h : Sound e) (c : Nat) : Sound { e with clock := c } := ⟨h.table, h.registry⟩

end Sound

/-- The engine as it is created: no rules, nothing queued, nothing tracked. -/
theorem Sound.start (compiler : Compiler) (capacity refillMs cacheCapacity retryBackoffMs : Nat) :
    Sound (create (Registry.create compiler capacity refillMs cacheCapacity) retryBackoffMs) := by
  refine ⟨⟨⟨by simp [create], ⟨by simp [create], by simp [create]⟩, fun k v => ?_⟩, rfl,
    fun k a ha => ?_⟩, ⟨by simp [create, Registry.create], ⟨_, Registry.FeedInv.start _ _ _ _⟩⟩⟩
  · simp [create, Indexed.keysUnder, Indexed.get?]
  · simp [create, Indexed.get?] at ha

/-! ## Every call -/

/-- A call that writes no rules keeps what the applies of handed or tracked objects, the
untracks, the steps of the coordinator, and the moves of the clock and of the association queue
keep. -/
theorem Sound.step_induction_fixed (P : Engine → Prop) (A : CandidateObject → Prop) (op : Op)
    (hfixed : op.writesRules = false)
    (happ : ∀ e o skip, A o → Sound e → P e → P (e.apply o skip).2)
    (hstored : ∀ e a, Sound e → P e → a ∈ e.tracked.list → A a.object)
    (hunt : ∀ e k, Sound e → P e → P (e.untrack k).2)
    (hnext : ∀ e, Sound e → P e → P e.processNext.2)
    (hclock : ∀ e c, P e → P { e with clock := c })
    (hmark : ∀ e, P e → P { e with feed := e.feed.markPopulated })
    (hpop : ∀ e handled, op = .popFeed handled → P e → P { e with feed := (e.feed.popReady handled).2 })
    (hop : ∀ o ∈ op.objects, A o) {e : Engine} (hs : Sound e) (h : P e) :
    Sound (e.step op) ∧ P (e.step op) := by
  -- the invariant carried through the writes made of many
  let S : Engine → Prop := fun e => Sound e ∧ P e
  have sapp : ∀ e o skip, A o → S e → S (e.apply o skip).2 :=
    fun e o skip ho h => ⟨h.1.apply o skip, happ e o skip ho h.1 h.2⟩
  have sunt : ∀ e k, S e → S (e.untrack k).2 := fun e k h => ⟨h.1.untrack k, hunt e k h.1 h.2⟩
  have snext : ∀ e, S e → S e.processNext.2 := fun e h => ⟨h.1.processNext, hnext e h.1 h.2⟩
  have sclock : ∀ e c, S e → S { e with clock := c } := fun e c h => ⟨h.1.clock c, hclock e c h.2⟩
  have sstored : ∀ e a, S e → a ∈ e.tracked.list → A a.object := fun e a h => hstored e a h.1 h.2
  have hS : S e := ⟨hs, h⟩
  cases op with
  | addRule d | updateRule d | deleteRule d | resyncRules listing => cases hfixed
  | add o => exact sapp e o false (hop o (by simp [Op.objects])) hS
  | update o =>
    show S (e.update o).2
    unfold update
    split
    · exact hS
    · split
      · exact hS
      · exact sapp e o false (hop o (by simp [Op.objects])) hS
  | delete o =>
    show S (e.delete o).2
    unfold delete
    split
    · exact hS
    · exact sunt e _ hS
  | deleteKey key => exact sunt e key hS
  | rematch key skip =>
    exact rematch_induction (fun a ha => sapp e _ skip (sstored e a hS (Indexed.mem_list_of_get? ha)) hS) hS
  | rematchAll skip =>
    refine rematchAll_induction (fun e' o ho h' => sapp e' o skip ?_ h') hS
    obtain ⟨a, ha, rfl⟩ := List.mem_map.1 ho
    exact sstored e a hS ha
  | resync =>
    refine rematchAll_induction (fun e' o ho h' => sapp e' o true ?_ h') hS
    obtain ⟨a, ha, rfl⟩ := List.mem_map.1 ho
    exact sstored e a hS ha
  | replace listing =>
    exact replace_induction sunt (fun e' o ho h' => sapp e' o true (hop o ho) h')
      (fun e' h' => ⟨⟨h'.1.table, h'.1.registry⟩, hmark e' h'.2⟩) hS
  | processNext => exact snext e hS
  | drain => exact drain_induction S snext hS
  | run timeoutMs => exact run_induction S snext sclock timeoutMs hS
  | advance ms => exact sclock e _ hS
  | popFeed handled => exact ⟨⟨hs.table, hs.registry⟩, hpop e handled rfl h⟩

/-- What every write keeps, every call keeps: an invariant of runs is proved from the rule
writes, the applies of handed or tracked objects, the untracks, the steps of the coordinator,
and the moves of the clock and of the association queue. -/
theorem Sound.step_induction (P : Engine → Prop) (A : CandidateObject → Prop) (op : Op)
    (hsub : ∀ e kind d, kind ≠ .deleted → Sound e → P e → P (e.submit kind d).2)
    (hdel : ∀ e d, Sound e → P e → P (e.deleteRule d).2)
    (hres : ∀ e listing, Sound e → P e → P (e.resyncRules listing).2)
    (happ : ∀ e o skip, A o → Sound e → P e → P (e.apply o skip).2)
    (hstored : ∀ e a, Sound e → P e → a ∈ e.tracked.list → A a.object)
    (hunt : ∀ e k, Sound e → P e → P (e.untrack k).2)
    (hnext : ∀ e, Sound e → P e → P e.processNext.2)
    (hclock : ∀ e c, P e → P { e with clock := c })
    (hmark : ∀ e, P e → P { e with feed := e.feed.markPopulated })
    (hpop : ∀ e handled, op = .popFeed handled → P e → P { e with feed := (e.feed.popReady handled).2 })
    (hop : ∀ o ∈ op.objects, A o) {e : Engine} (hs : Sound e) (h : P e) :
    Sound (e.step op) ∧ P (e.step op) := by
  cases op
  case addRule d => exact ⟨⟨hs.table, hs.registry.submit (by decide) d e.clock⟩, hsub e _ d (by decide) hs h⟩
  case updateRule d =>
    exact ⟨⟨hs.table, hs.registry.submit (by decide) d e.clock⟩, hsub e _ d (by decide) hs h⟩
  case deleteRule d => exact ⟨⟨hs.table, hs.registry.delete d⟩, hdel e d hs h⟩
  case resyncRules listing => exact ⟨⟨hs.table, hs.registry.resync listing e.clock⟩, hres e listing hs h⟩
  all_goals exact Sound.step_induction_fixed P A _ rfl happ hstored hunt hnext hclock hmark hpop hop hs h

theorem Sound.step {e : Engine} (h : Sound e) (op : Op) : Sound (e.step op) :=
  (Sound.step_induction (fun _ => True) (fun _ => True) op (fun _ _ _ _ _ _ => trivial)
    (fun _ _ _ _ => trivial) (fun _ _ _ _ => trivial) (fun _ _ _ _ _ _ => trivial)
    (fun _ _ _ _ _ => trivial) (fun _ _ _ _ => trivial) (fun _ _ _ => trivial)
    (fun _ _ _ => trivial) (fun _ _ => trivial) (fun _ _ _ _ => trivial)
    (fun _ _ => trivial) h trivial).1

/-- An invariant that every call keeps, alongside `Sound`, holds after every run. -/
theorem Sound.steps (P : Engine → Prop) (hstep : ∀ e op, Sound e → P e → P (e.step op)) :
    ∀ (ops : List Op) (e : Engine), Sound e → P e →
      Sound (ops.foldl Engine.step e) ∧ P (ops.foldl Engine.step e)
  | [], _, hs, h => ⟨hs, h⟩
  | op :: ops, e, hs, h => Sound.steps P hstep ops _ (hs.step op) (hstep e op hs h)

/-! ## Points of a run -/

/-- The engine after the first `n` calls of a run. -/
def after (start : Engine) (ops : List Op) (n : Nat) : Engine := (ops.take n).foldl step start

theorem after_succ (start : Engine) {ops : List Op} {n : Nat} (h : n < ops.length) :
    after start ops (n + 1) = (after start ops n).step ops[n] := by
  rw [after, after, List.take_add_one, List.getElem?_eq_getElem h, List.foldl_append]
  rfl

theorem after_length (start : Engine) (ops : List Op) :
    after start ops ops.length = ops.foldl step start := by
  simp [after]

end Engine

end MeterMatch
