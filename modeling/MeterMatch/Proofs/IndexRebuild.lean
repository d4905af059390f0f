import MeterMatch.Proofs.Indexed
import Mathlib.Data.String.Basic
import Mathlib.Order.Compare
import Mathlib.Order.WithBot
import Mathlib.Data.Prod.Lex

/-! # Rebuilding the inverted index

The keys listed under a value are kept ascending, so the index of a table is determined by its
items: a fresh index built from the items lists the same keys in the same order.

* `ObjectKey.rank`: keys compare as pairs, namespace first and a missing namespace lowest
  (`ObjectKey.compare_eq_lt_iff`), so the key order is a strict total order.
* `Indexed.SetsAscending`: every set of the index is ascending. Listing and unlisting keep it,
  hence every write (`Indexed.SetsAscending.upsert`, `Indexed.SetsAscending.remove`).
* `Indexed.WF.verify`: the check of a well-formed table whose sets are ascending passes.
-/

namespace MeterMatch

namespace ObjectKey

/-- A key as a pair, ordered namespace first, a missing namespace lowest. -/
def rank (a : ObjectKey) : WithBot String ×ₗ String := toLex (a.ns, a.name)

theorem compare_eq_lt_iff {a b : ObjectKey} : ObjectKey.compare a b = .lt ↔ a.rank < b.rank := by
  obtain ⟨ns, n⟩ := a
  obtain ⟨ns', n'⟩ := b
  simp only [rank, Prod.Lex.toLex_lt_toLex]
  cases ns <;> cases ns' <;>
    simp only [ObjectKey.compare, WithBot.none_eq_bot, WithBot.some_eq_coe, compare_lt_iff_lt,
      lt_irrefl, false_or, true_and, WithBot.bot_lt_coe, true_or, reduceCtorEq, not_lt_bot,
      WithBot.coe_ne_bot, false_and, or_false, Ordering.then_eq_lt, compare_eq_iff_eq,
      WithBot.coe_lt_coe, WithBot.coe_inj]

theorem compare_eq_gt_iff {a b : ObjectKey} : ObjectKey.compare a b = .gt ↔ b.rank < a.rank := by
  obtain ⟨ns, n⟩ := a
  obtain ⟨ns', n'⟩ := b
  simp only [rank, Prod.Lex.toLex_lt_toLex]
  cases ns <;> cases ns' <;>
    simp only [ObjectKey.compare, WithBot.none_eq_bot, WithBot.some_eq_coe, compare_gt_iff_gt,
      lt_irrefl, false_or, true_and, WithBot.bot_lt_coe, reduceCtorEq, not_lt_bot, WithBot.bot_ne_coe,
      WithBot.coe_ne_bot, false_and, or_false, Ordering.then_eq_gt, compare_eq_iff_eq,
      WithBot.coe_lt_coe, WithBot.coe_inj]
  -- two namespaces: the pair order reads their equality the other way round
  exact or_congr_right (and_congr_left fun _ => eq_comm)

/-- Keys listed strictly ascending. -/
def Ascending (l : List ObjectKey) : Prop := l.Pairwise fun a b => a.rank < b.rank

theorem Ascending.nodup {l : List ObjectKey} (h : Ascending l) : l.Nodup :=
  h.imp fun hab he => by
    subst he
    exact lt_irrefl _ hab

/-- Two ascending lists of the same keys are the same list. -/
theorem Ascending.eq_of_mem_iff {l₁ l₂ : List ObjectKey} (h₁ : Ascending l₁) (h₂ : Ascending l₂)
    (h : ∀ a, a ∈ l₁ ↔ a ∈ l₂) : l₁ = l₂ :=
  List.Perm.eq_of_pairwise (fun _ _ _ _ hab hba => absurd (hab.trans hba) (lt_irrefl _)) h₁ h₂
    ((List.perm_ext_iff_of_nodup h₁.nodup h₂.nodup).2 h)

theorem Ascending.insertSorted (k : ObjectKey) :
    ∀ {l : List ObjectKey}, Ascending l → Ascending (k.insertSorted l)
  | [], _ => List.pairwise_singleton _ _
  | x :: rest, h => by
    obtain ⟨hx, hrest⟩ := List.pairwise_cons.1 h
    unfold ObjectKey.insertSorted
    split
    case h_1 hlt =>
      have hkx := compare_eq_lt_iff.1 hlt
      refine List.pairwise_cons.2 ⟨fun y hy => ?_, h⟩
      rcases List.mem_cons.1 hy with rfl | hy
      · exact hkx
      · exact hkx.trans (hx y hy)
    case h_2 => exact h
    case h_3 hgt =>
      have hxk := compare_eq_gt_iff.1 hgt
      refine List.pairwise_cons.2 ⟨fun y hy => ?_, Ascending.insertSorted k hrest⟩
      rcases ObjectKey.mem_insertSorted.1 hy with rfl | hy
      · exact hxk
      · exact hx y hy

theorem Ascending.filter {l : List ObjectKey} (h : Ascending l) (p : ObjectKey → Bool) :
    Ascending (l.filter p) :=
  h.sublist List.filter_sublist

end ObjectKey

namespace Indexed

variable {α : Type}

/-- Every set of an index list is ascending. -/
def SetsAscending (ix : List (ObjectKey × List ObjectKey)) : Prop :=
  ∀ e ∈ ix, ObjectKey.Ascending e.2

section
variable {ix : List (ObjectKey × List ObjectKey)}

theorem SetsAscending.listUnder (h : SetsAscending ix) (k v : ObjectKey) :
    SetsAscending (listUnder k v ix) := by
  unfold Indexed.listUnder
  split
  · intro e he
    obtain ⟨e₀, he₀, rfl⟩ := List.mem_map.1 he
    by_cases hv : e₀.1 = v
    · simpa [hv] using (h e₀ he₀).insertSorted k
    · simpa [hv] using h e₀ he₀
  · intro e he
    rcases List.mem_append.1 he with he | he
    · exact h e he
    · rw [List.mem_singleton.1 he]
      exact List.pairwise_singleton _ _

theorem SetsAscending.unlistUnder (h : SetsAscending ix) (k v : ObjectKey) :
    SetsAscending (unlistUnder k v ix) := by
  intro e he
  obtain ⟨e₀, he₀, hf⟩ := List.mem_filterMap.1 he
  by_cases hv : e₀.1 = v
  · have hks : ¬(e₀.2.filter (· != k)).isEmpty = true := by
      intro hks
      simp [hv, hks] at hf
    simp only [hv, beq_self_eq_true, if_true, hks, Bool.false_eq_true, if_false,
      Option.some.injEq] at hf
    rw [← hf]
    exact (h e₀ he₀).filter _
  · simp only [beq_iff_eq, hv, if_false, Option.some.injEq] at hf
    rw [← hf]
    exact h e₀ he₀

theorem SetsAscending.foldl_listUnder (k : ObjectKey) :
    ∀ (vs : List ObjectKey) {ix : List (ObjectKey × List ObjectKey)}, SetsAscending ix →
      SetsAscending (vs.foldl (fun ix v => Indexed.listUnder k v ix) ix)
  | [], _, h => h
  | v :: vs, _, h => SetsAscending.foldl_listUnder k vs (h.listUnder k v)

theorem SetsAscending.foldl_unlistUnder (k : ObjectKey) :
    ∀ (vs : List ObjectKey) {ix : List (ObjectKey × List ObjectKey)}, SetsAscending ix →
      SetsAscending (vs.foldl (fun ix v => Indexed.unlistUnder k v ix) ix)
  | [], _, h => h
  | v :: vs, _, h => SetsAscending.foldl_unlistUnder k vs (h.unlistUnder k v)

/-- The keys an index list gives a value are one of its sets, or none. -/
theorem SetsAscending.keysAt (h : SetsAscending ix) (v : ObjectKey) :
    ObjectKey.Ascending (keysAt ix v) := by
  unfold Indexed.keysAt
  cases hl : lookupAt ix v with
  | none => exact List.Pairwise.nil
  | some ks => exact h (v, ks) (mem_of_lookupAt_eq_some hl)

end

variable {t t' : Indexed α}

theorem SetsAscending.indexItem (h : SetsAscending ix) (k : ObjectKey) (item : α) :
    SetsAscending (t.indexItem k item ix) :=
  SetsAscending.foldl_listUnder k _ h

theorem SetsAscending.unindex (h : SetsAscending t.index) (k : ObjectKey) (item : α) :
    SetsAscending (t.unindex k item).2.index := by
  unfold Indexed.unindex
  split
  · exact h
  · exact SetsAscending.foldl_unlistUnder k _ h

/-- A write keeps the sets of the index ascending, whether it succeeds or not. -/
theorem SetsAscending.upsert (h : SetsAscending t.index) {k : ObjectKey} {item : α}
    {r : Except IndexFault (Option α)} (hu : t.upsert k item = (r, t')) : SetsAscending t'.index := by
  unfold Indexed.upsert at hu
  cases hk : t.get? k with
  | some prev =>
    simp only [hk] at hu
    have h₁ := h.unindex k prev
    generalize t.unindex k prev = u at hu h₁
    obtain ⟨r₁, t₁⟩ := u
    cases r₁ with
    | error f =>
      obtain ⟨-, rfl⟩ := Prod.mk.inj hu
      exact h₁
    | ok _ =>
      obtain ⟨-, rfl⟩ := Prod.mk.inj hu
      exact h₁.indexItem k item
  | none =>
    simp only [hk] at hu
    obtain ⟨-, rfl⟩ := Prod.mk.inj hu
    exact h.indexItem k item

theorem SetsAscending.remove (h : SetsAscending t.index) {k : ObjectKey}
    {r : Except IndexFault (Option α)} (hr : t.remove k = (r, t')) : SetsAscending t'.index := by
  unfold Indexed.remove at hr
  cases hk : t.get? k with
  | some prev =>
    simp only [hk] at hr
    have h₁ := h.unindex k prev
    generalize t.unindex k prev = u at hr h₁
    obtain ⟨r₁, t₁⟩ := u
    cases r₁ with
    | error f =>
      obtain ⟨-, rfl⟩ := Prod.mk.inj hr
      exact h₁
    | ok _ =>
      obtain ⟨-, rfl⟩ := Prod.mk.inj hr
      exact h₁
  | none =>
    simp only [hk] at hr
    obtain ⟨-, rfl⟩ := Prod.mk.inj hr
    exact h

/-! ## The index built afresh -/

/-- A value is indexed exactly when it lists some key. -/
theorem IndexOk.mem_values {ix : List (ObjectKey × List ObjectKey)} (h : IndexOk ix) {v : ObjectKey} :
    v ∈ ix.map (·.1) ↔ keysAt ix v ≠ [] := by
  constructor
  · intro hv
    obtain ⟨ks, hks⟩ := Option.ne_none_iff_exists'.1 (mt lookupAt_eq_none.1 (not_not_intro hv))
    simpa [keysAt, hks] using h.nonempty _ ((lookupAt_eq_some_iff h.values).1 hks)
  · intro hne
    by_contra hv
    exact hne (keysAt_eq_nil hv)

section
variable (t : Indexed α)

theorem rebuild_eq : t.rebuild = t.items.foldl (fun ix e => t.indexItem e.1 e.2 ix) [] := rfl

theorem IndexOk.foldl_indexItem :
    ∀ (l : List (ObjectKey × α)) {ix : List (ObjectKey × List ObjectKey)}, IndexOk ix →
      IndexOk (l.foldl (fun ix e => t.indexItem e.1 e.2 ix) ix)
  | [], _, h => h
  | e :: l, _, h => IndexOk.foldl_indexItem l (IndexOk.foldl_listUnder e.1 _ h)

theorem SetsAscending.foldl_indexItem :
    ∀ (l : List (ObjectKey × α)) {ix : List (ObjectKey × List ObjectKey)}, SetsAscending ix →
      SetsAscending (l.foldl (fun ix e => t.indexItem e.1 e.2 ix) ix)
  | [], _, h => h
  | e :: l, _, h => SetsAscending.foldl_indexItem l (h.indexItem e.1 e.2)

/-- Listing the items of `l` in turn lists each key under the values of its item. -/
theorem mem_keysAt_foldl_indexItem (k w : ObjectKey) :
    ∀ (l : List (ObjectKey × α)) (ix : List (ObjectKey × List ObjectKey)),
      k ∈ keysAt (l.foldl (fun ix e => t.indexItem e.1 e.2 ix) ix) w ↔
        k ∈ keysAt ix w ∨ ∃ a, (k, a) ∈ l ∧ w ∈ t.indexOf a
  | [], ix => by simp
  | e :: l, ix => by
    rw [List.foldl_cons, mem_keysAt_foldl_indexItem k w l, indexItem, mem_keysAt_foldl_listUnder]
    constructor
    · rintro ((hk | ⟨hw, rfl⟩) | ⟨a, ha, hw⟩)
      · exact .inl hk
      · exact .inr ⟨e.2, List.mem_cons_self, hw⟩
      · exact .inr ⟨a, List.mem_cons_of_mem _ ha, hw⟩
    · rintro (hk | ⟨a, ha, hw⟩)
      · exact .inl (.inl hk)
      · rcases List.mem_cons.1 ha with rfl | ha
        · exact .inl (.inr ⟨hw, rfl⟩)
        · exact .inr ⟨a, ha, hw⟩

end

/-- The index built afresh indexes each value once, with a non-empty ascending set. -/
theorem rebuild_ok (t : Indexed α) : IndexOk t.rebuild ∧ SetsAscending t.rebuild :=
  ⟨rebuild_eq t ▸ IndexOk.foldl_indexItem t t.items ⟨by simp, by simp⟩,
    rebuild_eq t ▸ SetsAscending.foldl_indexItem t t.items (by simp [SetsAscending])⟩

/-- A well-formed table whose sets are ascending lists under each value the keys that the index
built afresh lists, in the same order. -/
theorem WF.keysAt_rebuild (h : t.WF) (hs : SetsAscending t.index) (w : ObjectKey) :
    keysAt t.rebuild w = t.keysUnder w := by
  -- both lists are ascending, so the same keys make the same list
  refine ((rebuild_ok t).2.keysAt w).eq_of_mem_iff (keysUnder_eq t w ▸ hs.keysAt w) fun k => ?_
  rw [rebuild_eq, mem_keysAt_foldl_indexItem, h.listed]
  simp [keysAt, get?_eq, lookupAt_eq_some_iff h.keys]

/-- A well-formed table whose sets are ascending passes its check: the index built afresh from
its items lists the same keys, in the same order, under the same values. -/
theorem WF.verify (h : t.WF) (hs : SetsAscending t.index) : t.verify = .ok () := by
  have hok := (rebuild_ok t).1
  have hsame := h.keysAt_rebuild hs
  have hlen : t.rebuild.length = t.index.length := by
    have hperm := (List.perm_ext_iff_of_nodup hok.values h.index.values).2 fun v => by
      rw [hok.mem_values, h.index.mem_values, hsame, keysUnder_eq]
    simpa using hperm.length_eq
  unfold Indexed.verify
  rw [if_pos]
  refine Bool.and_eq_true_iff.2 ⟨beq_iff_eq.2 hlen, List.all_eq_true.2 fun e he => ?_⟩
  obtain ⟨v, ks⟩ := e
  have hks : keysAt t.rebuild v = ks := by simp [keysAt, (lookupAt_eq_some_iff hok.values).2 he]
  show (t.keysUnder v == ks) = true
  rw [← hks, hsame]
  exact beq_self_eq_true _

end Indexed

end MeterMatch
