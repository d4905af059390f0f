import MeterMatch.Proofs.QueueModel

/-! # When a change queue has synced

A consumer pops deltas with a handler that may itself push (`ChangeQueue.Step.pop`, run by
`ChangeQueue.popWith`). The first `markPopulated` notes the keys pending at that moment, and the
queue `hasSynced` once each of them has been settled: handed to a handler that succeeded, or
gone from the queue because it cancelled out, on a push or when a failed delta was handed back.
A step's settled keys are read off the queue around it (`ChangeQueue.settles`): a push settles
its key when the key was pending before and is not after, and a pop settles the taken delta's key
when its handler succeeds or when, handed back, the delta leaves its key with nothing pending.

* `ChangeQueue.initial_step`: a step leaves the initial listing without the keys it settles;
  `ChangeQueue.initial_steps` is the same along a run.
* `ChangeQueue.steps_after_mark`: once populated, a queue ignores every later `markPopulated`.
* `ChangeQueue.hasSynced_tracks_listing`: from an empty queue, under either policy and along any
  run, `hasSynced` holds exactly when the run marks the queue populated and every key pending at
  the first mark is settled after it; it is false before the first mark, later marks change
  nothing, and once it holds it holds for good.
-/

namespace MeterMatch

namespace ChangeQueue

/-- A call on a change queue whose consumer's handler may push: a pop runs the handler on the
head delta, the handler pushes `ds`, then succeeds (`handled`) or fails. -/
inductive Step (α : Type) where
  | push (d : Delta α)
  | pop (ds : List (Delta α)) (handled : Bool)
  | close
  | markPopulated

variable {α : Type}

/-- Whether a step marks the queue populated. -/
def Step.isMark : Step α → Bool
  | .markPopulated => true
  | _ => false

/-- A pop whose handler pushes `ds` and then succeeds (`handled`) or fails. An empty queue runs
no handler. -/
def popWith (q : ChangeQueue α) (ds : List (Delta α)) (handled : Bool) : ChangeQueue α :=
  match q.take with
  | none => q
  | some (d, rest) => (ds.foldl pushed rest).settle d handled

/-- The queue after a step. -/
def step (q : ChangeQueue α) : Step α → ChangeQueue α
  | .push d => q.pushed d
  | .pop ds handled => q.popWith ds handled
  | .close => q.close
  | .markPopulated => q.markPopulated

/-- The queue after steps, in order. -/
def steps (q : ChangeQueue α) (ss : List (Step α)) : ChangeQueue α := ss.foldl step q

/-- The key a push cancels out: its own, when it was pending before the push and is not
after. -/
def cancels (q : ChangeQueue α) (d : Delta α) : List ObjectKey :=
  if q.holds d.key && !(q.pushed d).holds d.key then [d.key] else []

/-- The keys that pushes in a row cancel out. -/
def cancelsAll : ChangeQueue α → List (Delta α) → List ObjectKey
  | _, [] => []
  | q, d :: ds => q.cancels d ++ cancelsAll (q.pushed d) ds

/-- The keys a step settles: the key a push cancels out; for a pop, the keys its handler's
pushes cancel out, then the taken delta's key when the handler succeeds, or when the delta
handed back leaves its key with nothing pending. -/
def settles (q : ChangeQueue α) : Step α → List ObjectKey
  | .push d => q.cancels d
  | .pop ds handled =>
    match q.take with
    | none => []
    | some (d, rest) =>
      cancelsAll rest ds ++
        if handled || !((ds.foldl pushed rest).requeue d).holds d.key then [d.key] else []
  | .close | .markPopulated => []

/-- The keys settled along a run, in order. -/
def settledAlong : ChangeQueue α → List (Step α) → List ObjectKey
  | _, [] => []
  | q, s :: ss => q.settles s ++ settledAlong (q.step s) ss

@[simp] theorem steps_nil (q : ChangeQueue α) : q.steps [] = q := rfl

@[simp] theorem steps_cons (q : ChangeQueue α) (s : Step α) (ss : List (Step α)) :
    q.steps (s :: ss) = (q.step s).steps ss := rfl

theorem steps_append (q : ChangeQueue α) (ss ss' : List (Step α)) :
    q.steps (ss ++ ss') = (q.steps ss).steps ss' := List.foldl_append

/-! ## Removing settled keys -/

section Removing

variable {l : List ObjectKey} {ks ks' : List ObjectKey}

@[simp] theorem filter_not_mem_nil : (l.filter fun k => k ∉ ([] : List ObjectKey)) = l := by
  simp

theorem filter_not_mem_append :
    ((l.filter fun k => k ∉ ks).filter fun k => k ∉ ks') = l.filter fun k => k ∉ ks ++ ks' := by
  rw [List.filter_filter]
  exact List.filter_congr fun k _ => by simp [Bool.and_comm]

theorem filter_ne_eq (key : ObjectKey) : (l.filter (· != key)) = l.filter fun k => k ∉ [key] :=
  List.filter_congr fun k _ => by by_cases h : k = key <;> simp [h]

end Removing

/-! ## What a step does to the initial listing -/

section Steps

variable {q : ChangeQueue α}

theorem initial_pushed (q : ChangeQueue α) (d : Delta α) :
    (q.pushed d).initial = q.initial.filter fun k => k ∉ q.cancels d := by
  rw [(pushed_fields q d).2.2.2.2, cancels]
  cases hc : q.closed
  case true => simp [pushed_closed hc]
  cases hafter : (q.pushed d).holds d.key
  · -- the key left the queue, so it was pending before: a push of a new key appends it
    have hheld : q.holds d.key = true := by
      obtain ⟨q', hq, -⟩ := push_open hc d
      rw [pushed_of_push hq] at hafter
      obtain ⟨-, ⟨hh, -⟩ | ⟨-, hpend⟩⟩ := push_cases hq
      · exact hh
      · simp [holds_eq_any, hpend] at hafter
    simp [hheld, filter_ne_eq]
  · simp

@[simp] theorem populated_pushed (q : ChangeQueue α) (d : Delta α) :
    (q.pushed d).populated = q.populated :=
  (pushed_fields q d).2.2.2.1

theorem initial_pushAll (ds : List (Delta α)) (q : ChangeQueue α) :
    (ds.foldl pushed q).initial = q.initial.filter fun k => k ∉ cancelsAll q ds := by
  induction ds generalizing q with
  | nil => simp [cancelsAll]
  | cons d ds ih => rw [List.foldl_cons, ih, initial_pushed, filter_not_mem_append]; rfl

theorem populated_pushAll (ds : List (Delta α)) (q : ChangeQueue α) :
    (ds.foldl pushed q).populated = q.populated := by
  induction ds generalizing q with
  | nil => rfl
  | cons d ds ih => rw [List.foldl_cons, ih, populated_pushed]

/-- A delta handed back leaves the listing only when its key is left with nothing pending. -/
theorem initial_requeue (q : ChangeQueue α) (d : Delta α) :
    (q.requeue d).initial =
      q.initial.filter fun k => k ∉ if (q.requeue d).holds d.key then [] else [d.key] := by
  rw [(requeue_fields q d).2.2.2]
  split <;> simp [filter_ne_eq]

theorem populated_requeue (q : ChangeQueue α) (d : Delta α) :
    (q.requeue d).populated = q.populated :=
  (requeue_fields q d).2.2.1

theorem initial_of_take {rest : ChangeQueue α} {d : Delta α} (h : q.take = some (d, rest)) :
    rest.initial = q.initial ∧ rest.populated = q.populated :=
  ⟨(take_fields h).2.2.2, (take_fields h).2.2.1⟩

/-- A pop leaves the listing without the keys its handler's pushes cancel out and the taken
delta's key when it is settled. -/
theorem initial_popWith (q : ChangeQueue α) (ds : List (Delta α)) (handled : Bool) :
    (q.popWith ds handled).initial = q.initial.filter fun k => k ∉ q.settles (.pop ds handled) := by
  unfold popWith settles
  split
  · simp
  · rename_i d rest ht
    have hrest := (initial_of_take ht).1
    cases handled
    · simp only [settle, Bool.false_eq_true, if_false, Bool.false_or, initial_requeue,
        initial_pushAll, hrest, filter_not_mem_append]
      congr 2
      split <;> simp_all
    · simp only [settle, if_true, confirm, initial_pushAll, hrest, Bool.true_or, filter_ne_eq,
        filter_not_mem_append]

theorem populated_popWith (q : ChangeQueue α) (ds : List (Delta α)) (handled : Bool) :
    (q.popWith ds handled).populated = q.populated := by
  unfold popWith
  split
  · rfl
  · rename_i d rest ht
    cases handled
    · simp [settle, populated_requeue, populated_pushAll, (initial_of_take ht).2]
    · simp [settle, confirm, populated_pushAll, (initial_of_take ht).2]

/-- Only a mark populates the queue, and nothing unpopulates it. -/
theorem populated_step (q : ChangeQueue α) (s : Step α) :
    (q.step s).populated = (q.populated || s.isMark) := by
  cases s with
  | push d => simp [step, Step.isMark]
  | pop ds handled => simp [step, Step.isMark, populated_popWith]
  | close => simp [step, Step.isMark, close]
  | markPopulated =>
    simp only [step, Step.isMark, Bool.or_true, markPopulated]
    split <;> simp_all

/-- A step leaves the initial listing without the keys it settles, unless it is the first mark,
which notes the listing. -/
theorem initial_step {s : Step α} (h : s.isMark = true → q.populated = true) :
    (q.step s).initial = q.initial.filter fun k => k ∉ q.settles s := by
  cases s with
  | push d => exact initial_pushed q d
  | pop ds handled => exact initial_popWith q ds handled
  | close => simp [step, settles, close]
  | markPopulated => simp [step, settles, markPopulated, h rfl]

/-- Along a run that starts populated or never marks, the initial listing loses exactly the
keys the run settles. -/
theorem initial_steps {ss : List (Step α)} (h : q.populated = true ∨ ∀ s ∈ ss, s.isMark = false) :
    (q.steps ss).initial = q.initial.filter fun k => k ∉ q.settledAlong ss := by
  induction ss generalizing q with
  | nil => simp [settledAlong]
  | cons s ss ih =>
    have hs : s.isMark = true → q.populated = true := by
      rcases h with h | h
      · exact fun _ => h
      · intro hm
        rw [h s List.mem_cons_self] at hm
        cases hm
    have h' : (q.step s).populated = true ∨ ∀ s ∈ ss, s.isMark = false := by
      rcases h with h | h
      · exact .inl (by rw [populated_step, h, Bool.true_or])
      · exact .inr fun s' hs' => h s' (List.mem_cons_of_mem _ hs')
    rw [steps_cons, ih h', initial_step hs, filter_not_mem_append]
    rfl

theorem populated_steps (q : ChangeQueue α) (ss : List (Step α)) :
    (q.steps ss).populated = (q.populated || ss.any Step.isMark) := by
  induction ss generalizing q with
  | nil => simp
  | cons s ss ih => rw [steps_cons, ih, populated_step, List.any_cons, Bool.or_assoc]

/-- Once populated, a queue ignores every later mark. -/
theorem steps_after_mark {ss : List (Step α)} (h : q.populated = true) :
    q.steps ss = q.steps (ss.filter fun s => !s.isMark) := by
  induction ss generalizing q with
  | nil => rfl
  | cons s ss ih =>
    have h' : (q.step s).populated = true := by rw [populated_step, h, Bool.true_or]
    cases s with
    | markPopulated =>
      have hq : q.step .markPopulated = q := by simp [step, markPopulated, h]
      rw [steps_cons, hq, ih h]
      rfl
    | push d => exact ih h'
    | pop ds handled => exact ih h'
    | close => exact ih h'

/-- A run that marks splits at its first mark. -/
theorem exists_first_mark {ss : List (Step α)} (h : ss.any Step.isMark = true) :
    ∃ pre post, ss = pre ++ .markPopulated :: post ∧ ∀ s ∈ pre, s.isMark = false := by
  induction ss with
  | nil => cases h
  | cons s ss ih =>
    cases s with
    | markPopulated => exact ⟨[], ss, rfl, fun _ hs => nomatch hs⟩
    | push d =>
      obtain ⟨pre, post, rfl, hpre⟩ := ih (by simpa [Step.isMark] using h)
      exact ⟨.push d :: pre, post, rfl, by simpa [Step.isMark] using hpre⟩
    | pop ds handled =>
      obtain ⟨pre, post, rfl, hpre⟩ := ih (by simpa [Step.isMark] using h)
      exact ⟨.pop ds handled :: pre, post, rfl, by simpa [Step.isMark] using hpre⟩
    | close =>
      obtain ⟨pre, post, rfl, hpre⟩ := ih (by simpa [Step.isMark] using h)
      exact ⟨.close :: pre, post, rfl, by simpa [Step.isMark] using hpre⟩

/-- After the first mark of a run, the queue has synced exactly when every key pending at the
mark has been settled since. -/
theorem hasSynced_after_mark {pre post : List (Step α)} (h0 : q.populated = false)
    (hpre : ∀ s ∈ pre, s.isMark = false) :
    (q.steps (pre ++ .markPopulated :: post)).hasSynced = true ↔
      ∀ k ∈ (q.steps pre).keys, k ∈ (q.steps pre).markPopulated.settledAlong post := by
  have hunmarked : (q.steps pre).populated = false := by
    rw [populated_steps, h0, Bool.false_or, List.any_eq_false]
    exact fun s hs => by simp [hpre s hs]
  -- the mark notes the pending keys, and the run after it only settles them
  have hmark : (q.steps pre).markPopulated.populated = true ∧
      (q.steps pre).markPopulated.initial = (q.steps pre).keys := by
    simp [markPopulated, hunmarked, keys_eq]
  rw [steps_append, steps_cons, step, hasSynced, populated_steps, hmark.1, Bool.true_or,
    Bool.true_and, initial_steps (.inl hmark.1), hmark.2, List.isEmpty_iff, List.filter_eq_nil_iff]
  simp

end Steps

/-- From an empty queue, under either policy and along any run of pushes, pops whose handler
pushes and then succeeds or fails, closes and marks: the queue has synced exactly when the run
marks it populated and every key pending at the first mark is settled after that mark (handed to
a handler that succeeded, or cancelled out on a push or when handed back); it has not synced
while the run has no mark; marks after the first change nothing; and once synced it stays
synced. -/
theorem hasSynced_tracks_listing (name : String) (policy : Policy) (ss : List (Step α)) :
    (((empty name policy : ChangeQueue α).steps ss).hasSynced = true ↔
      ∃ pre post, ss = pre ++ .markPopulated :: post ∧ (∀ s ∈ pre, s.isMark = false) ∧
        ∀ k ∈ ((empty name policy : ChangeQueue α).steps pre).keys,
          k ∈ ((empty name policy : ChangeQueue α).steps pre).markPopulated.settledAlong post) ∧
    ((∀ s ∈ ss, s.isMark = false) →
      ((empty name policy : ChangeQueue α).steps ss).hasSynced = false) ∧
    (∀ pre post, (∀ s ∈ pre, s.isMark = false) →
      (empty name policy : ChangeQueue α).steps (pre ++ .markPopulated :: post) =
        (empty name policy : ChangeQueue α).steps
          (pre ++ .markPopulated :: post.filter fun s => !s.isMark)) ∧
    (∀ more, ((empty name policy : ChangeQueue α).steps ss).hasSynced = true →
      ((empty name policy : ChangeQueue α).steps (ss ++ more)).hasSynced = true) := by
  have h0 : (empty name policy : ChangeQueue α).populated = false := rfl
  -- a run without a mark leaves the queue unpopulated
  have hunmarked : ∀ ss : List (Step α), (∀ s ∈ ss, s.isMark = false) →
      ((empty name policy : ChangeQueue α).steps ss).populated = false := by
    intro ss hss
    rw [populated_steps, h0, Bool.false_or, List.any_eq_false]
    exact fun s hs => by simp [hss s hs]
  refine ⟨⟨fun hsync => ?_, ?_⟩, fun hss => ?_, fun pre post hpre => ?_, fun more hsync => ?_⟩
  · have hmarks : ss.any Step.isMark = true := by
      have hp : ((empty name policy : ChangeQueue α).steps ss).populated = true := by
        simp only [hasSynced, Bool.and_eq_true] at hsync
        exact hsync.1
      rwa [populated_steps, h0, Bool.false_or] at hp
    obtain ⟨pre, post, rfl, hpre⟩ := exists_first_mark hmarks
    exact ⟨pre, post, rfl, hpre, (hasSynced_after_mark h0 hpre).1 hsync⟩
  · rintro ⟨pre, post, rfl, hpre, hsettled⟩
    exact (hasSynced_after_mark h0 hpre).2 hsettled
  · simp [hasSynced, hunmarked ss hss]
  · have hmarked : ((empty name policy : ChangeQueue α).steps (pre ++ [.markPopulated])).populated =
        true := by
      rw [populated_steps]
      simp [Step.isMark]
    have hsplit : ∀ post : List (Step α),
        (empty name policy : ChangeQueue α).steps (pre ++ .markPopulated :: post) =
          ((empty name policy : ChangeQueue α).steps (pre ++ [.markPopulated])).steps post := by
      intro post
      rw [← steps_append]
      simp
    rw [hsplit post, hsplit (post.filter _), steps_after_mark hmarked]
  · -- a synced queue is populated with an empty listing, which no step refills
    simp only [hasSynced, Bool.and_eq_true, List.isEmpty_iff] at hsync ⊢
    obtain ⟨hp, hi⟩ := hsync
    rw [steps_append, populated_steps, hp, Bool.true_or, initial_steps (.inl hp), hi]
    exact ⟨rfl, rfl⟩

/-- Under `cancelUnseen`, an addition pending at the mark and then cancelled by a deletion is
settled, so the queue has synced, though the consumer never saw either delta. -/
theorem hasSynced_after_cancelled_addition :
    ((empty "test" .cancelUnseen : ChangeQueue Nat).steps
      [.push ⟨.added, .inNamespace "ns" "a", 1⟩, .markPopulated,
        .push ⟨.deleted, .inNamespace "ns" "a", 2⟩]).hasSynced = true :=
  (hasSynced_tracks_listing "test" .cancelUnseen _).1.2
    ⟨[.push ⟨.added, .inNamespace "ns" "a", 1⟩], [.push ⟨.deleted, .inNamespace "ns" "a", 2⟩], rfl,
      by decide, by decide⟩

end ChangeQueue

end MeterMatch
