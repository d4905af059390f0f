import MeterMatch.Proofs.Run

/-! # The association change queue is a faithful change feed

Every write to the association table queues a delta on the association change queue
(`Policy.cancelUnseen`): an addition for a new key, an update for a tracked one, a deletion when
a key is dropped. A consumer pops the deltas and keeps a copy of the table, applying each delta
that its handler accepts (`Engine.serve`). A delta handed back stays queued, merged with any
later delta of its key; an addition still queued when its key is dropped is cancelled, as the
consumer never saw the key.

* `Engine.FeedOk`: the queue cancels unseen additions and is faithful to the table for the
  consumer's copy (`ChangeQueue.Faithful`).
* `Engine.FeedOk.untrack`, `Engine.FeedOk.record`, `Engine.FeedOk.apply`: each write of the
  table keeps it, and so does every call (`Engine.FeedOk.call`), the error paths included.
* `Engine.association_feed_faithful`: in every run, the copy with the still queued deltas
  applied in order is the table, so whenever nothing is queued the copy is the table.
-/

namespace MeterMatch

namespace Engine

/-- The engine and the consumer's copy of its associations after a call: a pop of the
association change queue applies the popped delta to the copy when the handler accepts it. -/
def serve : Engine × Mirror Association → Op → Engine × Mirror Association
  | (e, M), .popFeed handled => (e.step (.popFeed handled), M.accept (e.feed.popReady handled).1)
  | (e, M), op => (e.step op, M)

/-- The association change queue cancels unseen additions and is faithful to the table for the
consumer's copy `M`. -/
structure FeedOk (e : Engine) (M : Mirror Association) : Prop where
  policy : e.feed.policy = .cancelUnseen
  faithful : e.feed.Faithful M e.tracked.get?

section
variable {e : Engine} {M : Mirror Association}

/-- The invariant reads only the queue's pending deltas and policy, and the table. -/
theorem FeedOk.of_eq {e' : Engine} (h : FeedOk e M) (hp : e'.feed.pending = e.feed.pending)
    (hpol : e'.feed.policy = e.feed.policy) (ht : e'.tracked = e.tracked) : FeedOk e' M := by
  refine ⟨hpol.trans h.policy, ?_⟩
  rw [ht]
  exact h.faithful.of_pending_eq hp hpol

theorem FeedOk.untrack (hw : e.tracked.WF) (h : FeedOk e M) (key : ObjectKey) :
    FeedOk (e.untrack key).2 M := by
  rcases untrack_cases hw key with ⟨he, -⟩ | ⟨existing, feed, t, hk, hq, -, -, hget, he⟩
  · rw [he]
    exact h
  rw [he]
  have ht : t.get? = Function.update e.tracked.get? key none := by
    funext k
    rw [hget, Function.update_apply]
  refine ⟨(ChangeQueue.push_cases hq).1.trans h.policy, ?_⟩
  show feed.Faithful M t.get?
  rw [ht]
  -- a deletion is queued only for a tracked key
  have hd : DeltaKind.deleted = .added ↔ e.tracked.get? key = none := by simp [hk]
  simpa [Delta.effect] using h.faithful.push_cancel h.policy hd hq

theorem FeedOk.record (hw : e.tracked.WF) (h : FeedOk e M) (key : ObjectKey)
    (o : CandidateObject) (rules : List ObjectKey) : FeedOk (e.record key o rules).2 M := by
  rcases record_cases hw key o rules with ⟨he, -⟩ | ⟨feed, t, hq, -, -, hget, he⟩
  · rw [he]
    exact h
  rw [he]
  have ht : t.get? = Function.update e.tracked.get? key (some (Association.make key o rules)) := by
    funext k
    rw [hget, Function.update_apply]
  refine ⟨(ChangeQueue.push_cases hq).1.trans h.policy, ?_⟩
  show feed.Faithful M t.get?
  rw [ht]
  -- an addition is queued exactly for a key the table lacks
  have hd : e.recordKind key = .added ↔ e.tracked.get? key = none := by
    unfold recordKind
    cases e.tracked.get? key <;> simp
  have hkind : e.recordKind key ≠ .deleted := by
    unfold recordKind
    split <;> simp
  simpa [Delta.effect, hkind] using h.faithful.push_cancel h.policy hd hq

theorem FeedOk.apply (hw : TableOk e.tracked) (h : FeedOk e M) (o : CandidateObject) (skip : Bool) :
    FeedOk (e.apply o skip).2 M := by
  -- the match changes only the registry
  have h₁ : FeedOk (e.findMatches o skip).2 M := h.of_eq (by simp [findMatches_eq])
    (by simp [findMatches_eq]) (findMatches_tracked e o skip)
  have hw₁ : (e.findMatches o skip).2.tracked.WF := by simpa using hw.wf
  rcases apply_cases e o skip with
    ⟨_, -, he⟩ | ⟨key, -, ⟨-, -, he | he⟩ | ⟨-, he⟩ | ⟨rules, -, -, he⟩⟩ <;> rw [he]
  · exact h
  · exact h₁
  · exact h₁.untrack hw₁ key
  · exact h₁.untrack hw₁ key
  · exact h₁.record hw₁ key o _

theorem FeedOk.processNext (hs : Sound e) (h : FeedOk e M) : FeedOk e.processNext.2 M := by
  rcases processNext_cases e with ⟨-, he⟩ | ⟨d, rest, -, he⟩
  · rw [he]
    exact h
  -- the handler writes the table through applies only
  have h₁ := handle_induction (fun e' => TableOk e'.tracked ∧ FeedOk e' M) (fun _ => True)
    (fun _ o skip _ h' => ⟨h'.1.apply o skip, h'.2.apply h'.1 o skip⟩) (fun _ _ _ _ => trivial)
    { e with registry := { e.registry with changes := rest } } d ⟨hs.table, h.of_eq rfl rfl rfl⟩
  rw [he]
  exact h₁.2.of_eq rfl rfl rfl

/-- A pop keeps the invariant for the copy with the accepted delta applied. -/
theorem FeedOk.pop (h : FeedOk e M) (handled : Bool) :
    FeedOk { e with feed := (e.feed.popReady handled).2 } (M.accept (e.feed.popReady handled).1) :=
  ⟨(ChangeQueue.policy_popReady e.feed handled).trans h.policy, h.faithful.popReady handled⟩

/-- Every call but a pop keeps the invariant for the same copy. -/
theorem FeedOk.step (hs : Sound e) (h : FeedOk e M) (op : Op)
    (hop : ∀ handled, op ≠ .popFeed handled) : FeedOk (e.step op) M :=
  (Sound.step_induction (fun e => FeedOk e M) (fun _ => True) op
    (fun _ _ _ _ _ h => h.of_eq rfl rfl rfl) (fun _ _ _ h => h.of_eq rfl rfl rfl)
    (fun _ _ _ h => h.of_eq rfl rfl rfl) (fun _ o skip _ hs h => h.apply hs.table o skip)
    (fun _ _ _ _ _ => trivial) (fun _ k hs h => h.untrack hs.table.wf k)
    (fun _ hs h => h.processNext hs) (fun _ _ h => h.of_eq rfl rfl rfl)
    (fun _ h => h.of_eq (by simp) (by simp) rfl) (fun _ handled hpop _ => absurd hpop (hop handled))
    (fun _ _ => trivial) hs h).2

theorem FeedOk.call (hs : Sound e) (h : FeedOk e M) (op : Op) :
    Sound (serve (e, M) op).1 ∧ FeedOk (serve (e, M) op).1 (serve (e, M) op).2 := by
  cases op
  case popFeed handled => exact ⟨hs.step (.popFeed handled), h.pop handled⟩
  all_goals
    dsimp only [serve]
    exact ⟨hs.step _, h.step hs _ fun _ hop => nomatch hop⟩

end

theorem FeedOk.run : ∀ (ops : List Op) {e : Engine} {M : Mirror Association}, Sound e → FeedOk e M →
    Sound (ops.foldl serve (e, M)).1 ∧ FeedOk (ops.foldl serve (e, M)).1 (ops.foldl serve (e, M)).2
  | [], _, _, hs, h => ⟨hs, h⟩
  | op :: ops, e, M, hs, h => by
    obtain ⟨hs₁, h₁⟩ := h.call hs op
    exact FeedOk.run ops hs₁ h₁

/-- The engine as created queues nothing and tracks nothing, like a copy that holds nothing. -/
theorem FeedOk.start (compiler : Compiler) (capacity refillMs cacheCapacity retryBackoffMs : Nat) :
    FeedOk (create (Registry.create compiler capacity refillMs cacheCapacity) retryBackoffMs)
      (fun _ => none) := by
  refine ⟨rfl, ⟨⟨by simp [create, ChangeQueue.empty, ChangeQueue.pending], by simp [create, ChangeQueue.empty, ChangeQueue.pending]⟩,
    by simp [create, ChangeQueue.empty, ChangeQueue.pending], fun k _ => ?_⟩⟩
  simp [create, Indexed.get?]

/-- In every run from the engine as created, where a consumer pops the association change queue
and applies to a copy of the table each delta that its handler accepts, the copy with the still
queued deltas applied in order is the table; so whenever nothing is queued, the copy holds
exactly the table's keys and associations. -/
theorem association_feed_faithful (compiler : Compiler)
    (capacity refillMs cacheCapacity retryBackoffMs : Nat) (ops : List Op) :
    let run := ops.foldl serve
      (create (Registry.create compiler capacity refillMs cacheCapacity) retryBackoffMs, fun _ => none)
    run.1.feed.pending.foldl Mirror.apply run.2 = run.1.association? ∧
      (run.1.feed.pending = [] → run.2 = run.1.association?) := by
  intro run
  have h := (FeedOk.run ops (Sound.start compiler capacity refillMs cacheCapacity retryBackoffMs)
    (FeedOk.start compiler capacity refillMs cacheCapacity retryBackoffMs)).2
  exact ⟨h.faithful.view, h.faithful.eq_of_empty⟩

end Engine

end MeterMatch
