import Adabt.Core.ValueOrder
import Adabt.Indexing.Index
import Mathlib.Data.List.Pairwise

/-! # What an index finds

An index in step with the records finds every record whose key equals the one
asked for, and every record whose key lies in the range asked for, as long as
the order and the hash of values are sound among the keys it holds. -/

set_option autoImplicit false

namespace Adabt.Indexing
open Adabt.Core Adabt.Ir Adabt.Library

/-- Among these keys the value order is a total order, and a hash map that has to
find one of them by another is given equal hashes. -/
structure KeysInOrder (kind : IndexKind) (keys : List Value) : Prop where
  linked : ∀ a ∈ keys, ∀ b ∈ keys, ∀ c ∈ keys, Linked (a.cmp b) (b.cmp c) (a.cmp c)
  hashed : kind ≠ .btree → ∀ a ∈ keys, ∀ b ∈ keys, a.cmp b = .eq → a.hashBytes = b.hashBytes

theorem KeysInOrder.mono {kind : IndexKind} {small large : List Value}
    (h : KeysInOrder kind large) (hs : small ⊆ large) : KeysInOrder kind small where
  linked := fun a ha b hb c hc => h.linked a (hs ha) b (hs hb) c (hs hc)
  hashed := fun hk a ha b hb => h.hashed hk a (hs ha) b (hs hb)

def Bound.literals : Bound → List Value
  | .included v | .excluded v => [v]
  | .unbounded => []

theorem sameKey_cmp {kind : IndexKind} {a b : Value} (h : sameKey kind a b = true) :
    a.cmp b = .eq := by
  rw [sameKey, decide_eq_true_eq] at h
  exact h.1

theorem cmp_eq_symm {a b : Value} (h : a.cmp b = .eq) : b.cmp a = .eq := by
  rw [Value.cmp_swap, h]
  rfl

namespace KeysInOrder

variable {kind : IndexKind} {keys : List Value} {a b c : Value}

theorem eq_trans (h : KeysInOrder kind keys) (ha : a ∈ keys) (hb : b ∈ keys) (hc : c ∈ keys)
    (hab : a.cmp b = .eq) (hbc : b.cmp c = .eq) : a.cmp c = .eq := by
  rw [h.linked a ha b hb c hc (by simp [hab]) (by simp [hbc]), hab, hbc]
  rfl

theorem sameKey_of_cmp (h : KeysInOrder kind keys) (ha : a ∈ keys) (hb : b ∈ keys)
    (hab : a.cmp b = .eq) : sameKey kind a b = true := by
  rw [sameKey, decide_eq_true_eq]
  refine ⟨hab, ?_⟩
  by_cases hk : kind = .btree
  · exact .inl hk
  · exact .inr (h.hashed hk a ha b hb hab)

theorem not_apart (h : KeysInOrder kind keys) (ha : a ∈ keys) (hb : b ∈ keys)
    (hab : a.cmp b = .eq) : ¬ Index.Apart kind a b := by
  rw [Index.Apart]
  split_ifs
  · simp [hab]
  · simp [h.sameKey_of_cmp ha hb hab]

theorem aboveLow_congr (h : KeysInOrder kind keys) (ha : a ∈ keys) (hb : b ∈ keys) {lo : Bound}
    (hlo : lo.literals ⊆ keys) (hab : b.cmp a = .eq) (hin : aboveLow b lo = true) :
    aboveLow a lo = true := by
  cases lo with
  | unbounded => rfl
  | included v | excluded v =>
    have hv : v ∈ keys := hlo (by simp [Bound.literals])
    rw [aboveLow, decide_eq_true_eq] at hin ⊢
    rw [h.linked v hv b hb a ha (by simp [hin]) (by simp [hab]), hab]
    cases hc : v.cmp b <;> simp_all

theorem belowHigh_congr (h : KeysInOrder kind keys) (ha : a ∈ keys) (hb : b ∈ keys) {hi : Bound}
    (hhi : hi.literals ⊆ keys) (hab : a.cmp b = .eq) (hin : belowHigh b hi = true) :
    belowHigh a hi = true := by
  cases hi with
  | unbounded => rfl
  | included v | excluded v =>
    have hv : v ∈ keys := hhi (by simp [Bound.literals])
    rw [belowHigh, decide_eq_true_eq] at hin ⊢
    rw [h.linked a ha b hb v hv (by simp [hab]) (by simp [hin]), hab]
    cases hc : b.cmp v <;> simp_all

end KeysInOrder

namespace Index

variable {i : Index} {records : OrdMap RecordId Record} {r : RecordId × Record} {k key : Value}

/-- The keys an index holds or has recorded, and those it is asked for. -/
def keysWith (i : Index) (records : OrdMap RecordId Record) (asked : List Value) : List Value :=
  i.entries.map (·.1) ++ records.entries.filterMap (fun r => i.shape.key r.2) ++ asked

theorem stored_mem {asked : List Value} {e : Value × List RecordId} (he : e ∈ i.entries) :
    e.1 ∈ i.keysWith records asked := by
  simp only [keysWith, List.mem_append]
  exact .inl (.inl (List.mem_map_of_mem he))

theorem recorded_mem {asked : List Value} (hr : r ∈ records.entries) (hk : i.shape.key r.2 = some k) :
    k ∈ i.keysWith records asked := by
  simp only [keysWith, List.mem_append]
  exact .inl (.inr (List.mem_filterMap.mpr ⟨r, hr, hk⟩))

theorem asked_subset (asked : List Value) : asked ⊆ i.keysWith records asked :=
  List.subset_append_right _ _

/-- Two entries with equal keys are one. -/
theorem entry_unique {asked : List Value} (h : i.Holds records)
    (ho : KeysInOrder i.kind (i.keysWith records asked)) {d e : Value × List RecordId}
    (hd : d ∈ i.entries) (he : e ∈ i.entries) (hde : d.1.cmp e.1 = .eq) : d = e := by
  have hcases : ∀ x ∈ i.entries, ∀ y ∈ i.entries, x = y ∨
      Apart i.kind x.1 y.1 ∨ Apart i.kind y.1 x.1 := by
    have hsym : i.entries.Pairwise fun x y => Apart i.kind x.1 y.1 ∨ Apart i.kind y.1 x.1 :=
      h.keys.imp fun hxy => .inl hxy
    have : Std.Symm fun x y : Value × List RecordId =>
        Apart i.kind x.1 y.1 ∨ Apart i.kind y.1 x.1 := ⟨fun _ _ => Or.symm⟩
    intro x hx y hy
    by_cases hxy : x = y
    · exact .inl hxy
    · exact .inr (hsym.forall hx hy hxy)
  rcases hcases d hd e he with rfl | hap | hap
  · rfl
  · exact absurd hap (ho.not_apart (stored_mem hd) (stored_mem he) hde)
  · exact absurd hap (ho.not_apart (stored_mem he) (stored_mem hd) (cmp_eq_symm hde))

theorem lookup_complete (h : i.Holds records) (ho : KeysInOrder i.kind (i.keysWith records [key]))
    (hr : r ∈ records.entries) (hk : i.shape.key r.2 = some k) (heq : k.cmp key = .eq) :
    r.1 ∈ i.lookup key := by
  obtain ⟨e, he, hsame, hid⟩ := h.complete r hr k hk
  have hkey : key ∈ i.keysWith records [key] := asked_subset [key] (by simp)
  have hek : e.1.cmp key = .eq :=
    ho.eq_trans (stored_mem he) (recorded_mem hr hk) hkey (sameKey_cmp hsame) heq
  have hfound : ∃ d, i.entries.find? (fun d => sameKey i.kind d.1 key) = some d := by
    rw [← Option.isSome_iff_exists, List.find?_isSome]
    exact ⟨e, he, ho.sameKey_of_cmp (stored_mem he) hkey hek⟩
  obtain ⟨d, hd⟩ := hfound
  have hdm := List.mem_of_find?_eq_some hd
  have hds : sameKey i.kind d.1 key = true :=
    List.find?_some (p := fun d : Value × List RecordId => sameKey i.kind d.1 key) hd
  have hde : d = e := by
    apply entry_unique h ho hdm he
    exact ho.eq_trans (stored_mem hdm) hkey (stored_mem he) (sameKey_cmp hds) (cmp_eq_symm hek)
  rw [lookup, hd, hde]
  exact hid

theorem lookup_cases (i : Index) (key : Value) :
    i.lookup key = [] ∨ ∃ e ∈ i.entries, i.lookup key = e.2 := by
  rw [lookup]
  cases hf : i.entries.find? fun e => sameKey i.kind e.1 key with
  | none => exact .inl rfl
  | some e => exact .inr ⟨e, List.mem_of_find?_eq_some hf, rfl⟩

theorem lookup_ascending (h : i.Holds records) (key : Value) :
    (i.lookup key).Pairwise (· < ·) := by
  rcases i.lookup_cases key with hn | ⟨e, he, hl⟩
  · rw [hn]
    exact List.Pairwise.nil
  · rw [hl]
    exact h.ids e he

theorem lookup_sound (h : i.Holds records) {id : RecordId} (hid : id ∈ i.lookup key) :
    ∃ r ∈ records.entries, r.1 = id ∧ (i.shape.key r.2).isSome := by
  rcases i.lookup_cases key with hn | ⟨e, he, hl⟩
  · rw [hn] at hid
    cases hid
  · rw [hl] at hid
    obtain ⟨r, hr, hri, k, hk, -⟩ := h.sound e he id hid
    exact ⟨r, hr, hri, Option.isSome_iff_exists.mpr ⟨k, hk⟩⟩

/-! ## Ranges -/

def rangeIds (i : Index) (lo hi : Bound) : List RecordId :=
  (i.entries.filter fun e => aboveLow e.1 lo && belowHigh e.1 hi).flatMap (·.2)

theorem range_eq {lo hi : Bound} (hk : i.kind.supportsRange = true) (hc : crossing lo hi = none) :
    i.range lo hi = .ok (some (i.rangeIds lo hi)) := by
  rw [range, if_pos hk, hc]
  rfl

theorem range_complete {lo hi : Bound} (h : i.Holds records)
    (ho : KeysInOrder i.kind (i.keysWith records (lo.literals ++ hi.literals)))
    (hr : r ∈ records.entries) (hk : i.shape.key r.2 = some k) (hlo : aboveLow k lo = true)
    (hhi : belowHigh k hi = true) : r.1 ∈ i.rangeIds lo hi := by
  obtain ⟨e, he, hsame, hid⟩ := h.complete r hr k hk
  have hasked : lo.literals ++ hi.literals ⊆ i.keysWith records (lo.literals ++ hi.literals) :=
    asked_subset _
  have hek := sameKey_cmp hsame
  refine List.mem_flatMap.mpr ⟨e, List.mem_filter.mpr ⟨he, ?_⟩, hid⟩
  rw [Bool.and_eq_true]
  constructor
  · exact ho.aboveLow_congr (stored_mem he) (recorded_mem hr hk)
      (List.Subset.trans (List.subset_append_left _ _) hasked) (cmp_eq_symm hek) hlo
  · exact ho.belowHigh_congr (stored_mem he) (recorded_mem hr hk)
      (List.Subset.trans (List.subset_append_right _ _) hasked) hek hhi

theorem range_sound {lo hi : Bound} (h : i.Holds records) {id : RecordId}
    (hid : id ∈ i.rangeIds lo hi) :
    ∃ r ∈ records.entries, r.1 = id ∧ (i.shape.key r.2).isSome := by
  obtain ⟨e, he, hid⟩ := List.mem_flatMap.mp hid
  obtain ⟨r, hr, hri, k, hk, -⟩ := h.sound e (List.mem_filter.mp he).1 id hid
  exact ⟨r, hr, hri, Option.isSome_iff_exists.mpr ⟨k, hk⟩⟩

/-- Among the records kept, a greater id never has a smaller key. -/
def KeysFollowIds (i : Index) (records : OrdMap RecordId Record) (keep : Record → Bool) : Prop :=
  ∀ r ∈ records.entries, ∀ s ∈ records.entries, keep r.2 → keep s.2 → r.1 < s.1 →
    ∀ k ∈ i.shape.key r.2, ∀ m ∈ i.shape.key s.2, k.cmp m ≠ .gt

instance (i : Index) (records : OrdMap RecordId Record) (keep : Record → Bool) :
    Decidable (i.KeysFollowIds records keep) := by
  unfold KeysFollowIds
  infer_instance

/-- A walk over a tree gives ids in key order, so those kept come out in id order
when their keys follow their ids. -/
theorem rangeIds_ascending {lo hi : Bound} {keep : Record → Bool} (h : i.Holds records)
    (hkind : i.kind = .btree)
    (ho : KeysInOrder i.kind (i.keysWith records (lo.literals ++ hi.literals)))
    (hf : i.KeysFollowIds records keep) :
    (i.rangeIds lo hi).Pairwise fun x y =>
      ∀ r ∈ records.entries, ∀ s ∈ records.entries, r.1 = x → s.1 = y →
        keep r.2 → keep s.2 → x < y := by
  refine List.pairwise_flatMap.mpr ⟨fun e he => ?_, ?_⟩
  · exact (h.ids e (List.mem_filter.mp he).1).imp fun hxy _ _ _ _ _ _ _ _ => hxy
  · refine ((List.Pairwise.and_mem.mp h.keys).filter _).imp ?_
    rintro d e ⟨hd, he, hap⟩ x hx y hy r hr s hs rfl rfl hkr hks
    rw [Apart, if_pos hkind] at hap
    -- Each id stands under the key of its own record.
    have hown : ∀ {e : Value × List RecordId} {r : RecordId × Record}, e ∈ i.entries →
        r ∈ records.entries → r.1 ∈ e.2 → ∃ k, i.shape.key r.2 = some k ∧ e.1.cmp k = .eq := by
      intro e r he hr hid
      obtain ⟨r', hr', hid', k, hk, hsame⟩ := h.sound e he _ hid
      have : r' = r := by
        have h₁ := (OrdMap.mem_entries records r'.1 r'.2).mp hr'
        have h₂ := (OrdMap.mem_entries records r.1 r.2).mp hr
        rw [hid', h₂] at h₁
        exact Prod.ext hid' (Option.some.inj h₁).symm
      subst this
      exact ⟨k, hk, sameKey_cmp hsame⟩
    obtain ⟨k, hk, hdk⟩ := hown hd hr hx
    obtain ⟨m, hm, hem⟩ := hown he hs hy
    have hkd := cmp_eq_symm hdk
    have hlt : k.cmp m = .lt := by
      have hke : k.cmp e.1 = .lt := by
        rw [ho.linked k (recorded_mem hr hk) d.1 (stored_mem hd) e.1 (stored_mem he)
          (by simp [hkd]) (by simp [hap]), hkd, hap]
        rfl
      rw [ho.linked k (recorded_mem hr hk) e.1 (stored_mem he) m (recorded_mem hs hm)
        (by simp [hke]) (by simp [hem]), hke]
      rfl
    rcases lt_trichotomy r.1 s.1 with hlt' | heq | hgt
    · exact hlt'
    · have h₁ := (OrdMap.mem_entries records r.1 r.2).mp hr
      have h₂ := (OrdMap.mem_entries records s.1 s.2).mp hs
      rw [heq, h₂] at h₁
      have hrs : s.2 = r.2 := Option.some.inj h₁
      rw [hrs, hk] at hm
      cases hm
      rw [Value.cmp_self] at hlt
      cases hlt
    · have hne := hf s hs r hr hks hkr hgt m hm k hk
      rw [Value.cmp_swap, hlt] at hne
      exact absurd rfl hne

end Index

end Adabt.Indexing
