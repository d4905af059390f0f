import MeterMatch.Engine.Propagation
import MeterMatch.Proofs.Tracking

/-! # What propagating a rule change changes

The coordinator's steps are made of the object writes of `MeterMatch.Proofs.Tracking` and of
the rule change queue's take and settle:

* `Engine.cascade_induction`, `Engine.cascade_ok`: a cascade keeps what each rematch keeps, and
  one that succeeds leaves every association it was given rematched.
* `Engine.byIndex_ok`: on a table as the engine keeps it, the associations of a rule are read
  without error, and they are exactly the stored associations that name the rule.
* `Engine.handle_cases`: handling a change either changes nothing and fails, or re-applies every
  tracked object (an addition or an update), or cascades over the associations of the rule (a
  deletion).
* `Engine.processNext_cases`: a step of the coordinator takes the head change, handles it on
  the rest of the queue, and confirms it or hands it back; handling changes only the cache of
  the registry (`Engine.handle_registry`).
* `Engine.drain_induction`, `Engine.run_induction`: draining and running keep what each step of
  the coordinator and each move of the clock keep.
-/

theorem Except.eq_ok_of_isOk {ε : Type} {x : Except ε Unit} (h : x.isOk = true) : x = .ok () := by
  cases x with
  | ok u => rfl
  | error err => simp [Except.isOk, Except.toBool] at h

namespace MeterMatch

namespace Engine

section
variable (P : Engine → Prop)

/-! ## Cascades -/

/-- A cascade keeps what each rematch keeps. -/
theorem cascade_induction (hP : ∀ e k, P e → P (e.rematch k false).2) :
    ∀ (as : List Association) (e : Engine), P e → P (cascade as e).2
  | [], _, h => h
  | a :: rest, e, h => by
    have h₁ := hP e a.key h
    unfold cascade
    split <;> rename_i he <;> rw [he] at h₁
    · exact cascade_induction hP rest _ h₁
    · exact h₁

/-- A cascade that succeeds leaves the key of every association it was given as a successful
rematch leaves it, for a property of keys that every rematch keeps. -/
theorem cascade_ok (G : Engine → ObjectKey → Prop) (hP : ∀ e k, P e → P (e.rematch k false).2)
    (hG : ∀ e k k', P e → G e k' → G (e.rematch k false).2 k')
    (hok : ∀ e k c, P e → (e.rematch k false).1 = .ok c → G (e.rematch k false).2 k) :
    ∀ (as : List Association) (e : Engine), P e → (cascade as e).1 = .ok () →
      ∀ a ∈ as, G (cascade as e).2 a.key
  | [], _, _, _, a, ha => by simp at ha
  | a :: rest, e, h, hc, a', ha' => by
    unfold cascade at hc ⊢
    split at hc
    · rename_i c e' he
      have h₁ : P e' := by simpa [he] using hP e a.key h
      rcases List.mem_cons.1 ha' with rfl | ha'
      · -- the first key, rematched now and kept by the rematches after it
        have hG₁ : G e' a'.key := by simpa [he] using hok e a'.key c h (by rw [he])
        exact (cascade_induction (fun e => P e ∧ G e a'.key)
          (fun e k hPG => ⟨hP e k hPG.1, hG e k a'.key hPG.1 hPG.2⟩) rest e' ⟨h₁, hG₁⟩).2
      · exact cascade_ok G hP hG hok rest e' h₁ hc a' ha'
    · cases hc

end

/-- On a table as the engine keeps it, the associations of a rule are read without error: the
stored associations that name it. -/
theorem byIndex_ok {e : Engine} (h : TableOk e.tracked) (rule : ObjectKey) :
    ∃ as, e.byIndex rule = .ok as ∧ ∀ a, a ∈ as ↔ ∃ k, e.tracked.get? k = some a ∧ rule ∈ a.rules := by
  obtain ⟨as, hread, hmem⟩ := h.wf.byIndex_ok rule
  refine ⟨as, ?_, fun a => ?_⟩
  · show (e.tracked.byIndex rule).mapError EngineError.invariant = .ok as
    rw [hread]
    rfl
  rw [hmem a, h.indexOf]

/-! ## Handling a change -/

/-- Handling a rule change either fails and changes nothing, or, for an addition or an update,
re-applies every tracked object through the cache, or, for a deletion, cascades over the
associations of the deleted rule. -/
theorem handle_cases (e : Engine) (d : Delta Definition) :
    ((handle e d).2 = e ∧ ∀ c, (handle e d).1 ≠ .ok c) ∨
      (d.kind ≠ .deleted ∧ (handle e d).2 = (e.rematchAll false).2 ∧
        ((handle e d).1 = .ok () → ∃ n, (e.rematchAll false).1 = .ok n)) ∨
      (d.kind = .deleted ∧ ∃ affected, e.byIndex d.key = .ok affected ∧
        handle e d = cascade affected e) := by
  unfold handle
  split
  · exact .inl ⟨rfl, fun _ h => by cases h⟩
  · split
    · exact .inl ⟨rfl, fun _ h => by cases h⟩
    · split
      · rename_i hk
        refine .inr (.inl ⟨by simp [hk], ?_⟩)
        split <;> rename_i he <;> simp [he]
      · rename_i hk
        refine .inr (.inl ⟨by simp [hk], ?_⟩)
        split <;> rename_i he <;> simp [he]
      · rename_i hk
        split
        · exact .inl ⟨rfl, fun _ h => by cases h⟩
        · rename_i affected ha
          exact .inr (.inr ⟨hk, affected, ha, rfl⟩)

theorem handle_registry (e : Engine) (d : Delta Definition) :
    (handle e d).2.registry = { e.registry with cache := (handle e d).2.registry.cache } := by
  -- every write of the handler keeps the registry but for its cache
  let P : Engine → Prop := fun e' => e'.registry = { e.registry with cache := e'.registry.cache }
  have happly : ∀ e' o skip, P e' → P (e'.apply o skip).2 := by
    intro e' o skip h'
    simp only [P] at h' ⊢
    rw [apply_registry, h']
  have hrematch : ∀ e' k, P e' → P (e'.rematch k false).2 :=
    fun e' k h' => rematch_induction (fun a _ => happly e' a.object false h') h'
  have h₀ : P e := rfl
  rcases handle_cases e d with ⟨he, -⟩ | ⟨-, he, -⟩ | ⟨-, affected, -, he⟩
  · rw [he]
  · rw [he]
    exact rematchAll_induction (fun e' _ _ h' => happly e' _ false h') h₀
  · rw [he]
    exact cascade_induction P hrematch affected e h₀

/-- Handling a change keeps what every apply of a tracked object keeps. -/
theorem handle_induction (P : Engine → Prop) (A : CandidateObject → Prop)
    (happ : ∀ e o skip, A o → P e → P (e.apply o skip).2)
    (hstored : ∀ e a, P e → a ∈ e.tracked.list → A a.object) :
    ∀ (e : Engine) (d : Delta Definition), P e → P (handle e d).2 := by
  intro e d h
  have hrematch : ∀ e' k, P e' → P (e'.rematch k false).2 := fun e' k h' =>
    rematch_induction (fun a ha => happ e' a.object false
      (hstored e' a h' (Indexed.mem_list_of_get? ha)) h') h'
  rcases handle_cases e d with ⟨he, -⟩ | ⟨-, he, -⟩ | ⟨-, affected, -, he⟩ <;> rw [he]
  · exact h
  · refine rematchAll_induction (fun e' o ho h' => happ e' o false ?_ h') h
    -- the objects re-applied are those tracked at the start
    obtain ⟨a, ha, rfl⟩ := List.mem_map.1 ho
    exact hstored e a h ha
  · exact cascade_induction P hrematch affected e h

/-! ## The coordinator -/

/-- A step of the coordinator either finds the queue empty and changes nothing, or takes the
head change, handles it against the rest of the queue, and settles it: confirmed if handled,
otherwise handed back. -/
theorem processNext_cases (e : Engine) :
    (e.registry.changes.pending = [] ∧ e.processNext = (.ok none, e)) ∨
      ∃ d rest, e.registry.changes.take = some (d, rest) ∧
        (e.processNext).2 =
          { (handle { e with registry := { e.registry with changes := rest } } d).2 with
            registry :=
              { (handle { e with registry := { e.registry with changes := rest } } d).2.registry with
                changes := rest.settle d
                  (handle { e with registry := { e.registry with changes := rest } } d).1.isOk } } := by
  unfold processNext
  split
  · rename_i ht
    exact .inl ⟨ChangeQueue.take_eq_none.1 ht, rfl⟩
  · rename_i d rest ht
    refine .inr ⟨d, rest, ht, ?_⟩
    -- handling leaves the queue as it was given: the rest
    have hq : (handle { e with registry := { e.registry with changes := rest } } d).2.registry.changes =
        rest := by
      rw [handle_registry]
    generalize handle { e with registry := { e.registry with changes := rest } } d = p at hq ⊢
    obtain ⟨result, e'⟩ := p
    dsimp only at hq
    cases result <;> dsimp only <;> rw [hq] <;> rfl

/-- A step of the coordinator keeps the rules. -/
theorem processNext_rules (e : Engine) : e.processNext.2.registry.rules = e.registry.rules := by
  rcases processNext_cases e with ⟨-, he⟩ | ⟨d, rest, -, he⟩
  · rw [he]
  · rw [he]
    dsimp only
    rw [handle_registry]

section
variable (P : Engine → Prop)

theorem drainFrom_induction (hP : ∀ e, P e → P e.processNext.2) :
    ∀ (fuel handled : Nat) (e : Engine), P e → P (drainFrom fuel handled e).2
  | 0, _, _, h => h
  | fuel + 1, handled, e, h => by
    have h₁ := hP e h
    unfold drainFrom
    split <;> rename_i he <;> rw [he] at h₁
    · exact h₁
    · exact drainFrom_induction hP fuel _ _ h₁
    · exact h₁

theorem drain_induction (hP : ∀ e, P e → P e.processNext.2) {e : Engine} (h : P e) : P e.drain.2 :=
  drainFrom_induction P hP _ 0 e h

/-- Retrying keeps what each step of the coordinator and each move of the clock keep. -/
theorem retryUntil_induction (hP : ∀ e, P e → P e.processNext.2)
    (hC : ∀ e c, P e → P { e with clock := c }) (deadline : Nat) :
    ∀ (attempts : Nat) (e : Engine), P e → P (retryUntil deadline attempts e).2
  | 0, e, h => hC e _ h
  | attempts + 1, e, h => by
    have h₁ := drain_induction P hP h
    unfold retryUntil
    split <;> rename_i he <;> rw [he] at h₁
    · exact h₁
    · split
      · exact retryUntil_induction hP hC deadline attempts _ (hC _ _ h₁)
      · exact hC _ _ h₁

theorem run_induction (hP : ∀ e, P e → P e.processNext.2)
    (hC : ∀ e c, P e → P { e with clock := c }) {e : Engine} (timeoutMs : Nat) (h : P e) :
    P (e.run timeoutMs).2 :=
  retryUntil_induction P hP hC _ _ e h

end

end Engine

end MeterMatch
