import Adabt.Library.Selection

/-! # Merging ordered lists

The least head of several lists is taken again and again, and of equal heads the
one of the first list. From lists in ascending key order that share no key comes
the ascending list of all their members. -/

set_option autoImplicit false

namespace Adabt.Library

variable {α κ : Type} [LinearOrder κ] (key : α → κ)

/-- The least of the heads, and the lists without it. -/
def takeLeast : List (List α) → Option (α × List (List α))
  | [] => none
  | [] :: lists => (takeLeast lists).map fun r => (r.1, [] :: r.2)
  | (a :: l) :: lists => match takeLeast lists with
    | none => some (a, l :: lists)
    | some (b, rest) => if key b < key a then some (b, (a :: l) :: rest) else some (a, l :: lists)

/-- Take the least head at most `n` times. -/
def mergeHeads : ℕ → List (List α) → List α
  | 0, _ => []
  | n + 1, lists => match takeLeast key lists with
    | none => []
    | some (a, rest) => a :: mergeHeads n rest

variable {key}

theorem takeLeast_none {lists : List (List α)} (h : takeLeast key lists = none) :
    lists.flatten = [] := by
  induction lists with
  | nil => rfl
  | cons l lists ih =>
    cases l with
    | nil => exact ih (Option.map_eq_none_iff.mp h)
    | cons a l =>
      rw [takeLeast] at h
      split at h
      · cases h
      · split_ifs at h

theorem takeLeast_perm {lists rest : List (List α)} {a : α}
    (h : takeLeast key lists = some (a, rest)) : lists.flatten.Perm (a :: rest.flatten) := by
  induction lists generalizing a rest with
  | nil => cases h
  | cons l lists ih =>
    cases l with
    | nil =>
      obtain ⟨⟨b, more⟩, hb, heq⟩ := Option.map_eq_some_iff.mp h
      cases heq
      simpa using ih hb
    | cons b l =>
      rw [takeLeast] at h
      split at h
      · cases h
        exact List.Perm.refl _
      · rename_i c more hc
        split_ifs at h
        · cases h
          exact ((ih hc).append_left (b :: l)).trans List.perm_middle
        · cases h
          exact List.Perm.refl _

/-- What is taken is the head of one of the lists. -/
theorem takeLeast_head {lists rest : List (List α)} {a : α}
    (h : takeLeast key lists = some (a, rest)) :
    ∃ (i : ℕ) (l : List α), lists[i]? = some (a :: l) := by
  induction lists generalizing a rest with
  | nil => cases h
  | cons l lists ih =>
    cases l with
    | nil =>
      obtain ⟨⟨b, more⟩, hb, heq⟩ := Option.map_eq_some_iff.mp h
      cases heq
      obtain ⟨i, l, hi⟩ := ih hb
      exact ⟨i + 1, l, hi⟩
    | cons b l =>
      rw [takeLeast] at h
      split at h
      · cases h
        exact ⟨0, l, rfl⟩
      · rename_i c more hc
        split_ifs at h
        · cases h
          obtain ⟨i, l, hi⟩ := ih hc
          exact ⟨i + 1, l, hi⟩
        · cases h
          exact ⟨0, l, rfl⟩

/-- The first of the least heads is the one taken. -/
theorem takeLeast_first {lists : List (List α)} {i : ℕ} {a : α} {l : List α}
    (hi : lists[i]? = some (a :: l))
    (hbefore : ∀ j < i, ∀ b m, lists[j]? = some (b :: m) → key a < key b)
    (hafter : ∀ j, i < j → ∀ b m, lists[j]? = some (b :: m) → key a ≤ key b) :
    takeLeast key lists = some (a, lists.set i l) := by
  induction lists generalizing i with
  | nil => cases hi
  | cons m lists ih =>
    cases i with
    | zero =>
      obtain rfl : m = a :: l := Option.some.inj hi
      rw [takeLeast, List.set_cons_zero]
      split
      · rfl
      · rename_i b more hb
        obtain ⟨j, n, hj⟩ := takeLeast_head hb
        rw [if_neg (not_lt.mpr (hafter (j + 1) (Nat.succ_pos j) b n hj))]
    | succ i =>
      have hrest : takeLeast key lists = some (a, lists.set i l) :=
        ih hi (fun j hj b n h => hbefore (j + 1) (by omega) b n h)
          (fun j hj b n h => hafter (j + 1) (by omega) b n h)
      cases m with
      | nil => rw [takeLeast, hrest]; rfl
      | cons b m =>
        rw [takeLeast, hrest]
        exact if_pos (hbefore 0 (Nat.succ_pos i) b m rfl)

theorem takeLeast_eq_none {lists : List (List α)} (h : ∀ l ∈ lists, l = []) :
    takeLeast key lists = none := by
  induction lists with
  | nil => rfl
  | cons l lists ih =>
    obtain rfl := h l List.mem_cons_self
    rw [takeLeast, ih fun m hm => h m (List.mem_cons_of_mem _ hm)]
    rfl

section Ascending

/-- Every list is in ascending key order. -/
def AscendingEach (key : α → κ) (lists : List (List α)) : Prop :=
  ∀ l ∈ lists, l.Pairwise fun a b => key a < key b

theorem takeLeast_ascending {lists rest : List (List α)} {a : α} (hs : AscendingEach key lists)
    (h : takeLeast key lists = some (a, rest)) : AscendingEach key rest := by
  induction lists generalizing a rest with
  | nil => cases h
  | cons l lists ih =>
    have hl := hs l List.mem_cons_self
    have hlists : AscendingEach key lists := fun m hm => hs m (List.mem_cons_of_mem _ hm)
    have hcons : ∀ {m : List α} {more}, m.Pairwise (fun a b => key a < key b) →
        AscendingEach key more → AscendingEach key (m :: more) := by
      intro m more hm hmore n hn
      rcases List.mem_cons.mp hn with rfl | hn
      · exact hm
      · exact hmore n hn
    cases l with
    | nil =>
      obtain ⟨⟨b, more⟩, hb, heq⟩ := Option.map_eq_some_iff.mp h
      cases heq
      exact hcons hl (ih hlists hb)
    | cons b l =>
      rw [takeLeast] at h
      split at h
      · cases h
        exact hcons hl.of_cons hlists
      · rename_i c more hc
        split_ifs at h
        · cases h
          exact hcons hl (ih hlists hc)
        · cases h
          exact hcons hl.of_cons hlists

theorem takeLeast_least {lists rest : List (List α)} {a : α} (hs : AscendingEach key lists)
    (h : takeLeast key lists = some (a, rest)) : ∀ b ∈ lists.flatten, key a ≤ key b := by
  induction lists generalizing a rest with
  | nil => cases h
  | cons l lists ih =>
    have hl := hs l List.mem_cons_self
    have hlists : AscendingEach key lists := fun m hm => hs m (List.mem_cons_of_mem _ hm)
    cases l with
    | nil =>
      obtain ⟨⟨b, more⟩, hb, heq⟩ := Option.map_eq_some_iff.mp h
      cases heq
      exact ih hlists hb
    | cons b l =>
      have hhead : ∀ c ∈ b :: l, key b ≤ key c := by
        intro c hc
        rcases List.mem_cons.mp hc with rfl | hc
        · exact le_rfl
        · exact ((List.pairwise_cons.mp hl).1 c hc).le
      rw [List.flatten_cons]
      intro c hc
      rw [takeLeast] at h
      split at h
      · rename_i hnone
        cases h
        rw [takeLeast_none hnone, List.append_nil] at hc
        exact hhead c hc
      · rename_i d more hd
        have hmore := ih hlists hd
        split_ifs at h with hlt
        · cases h
          rcases List.mem_append.mp hc with hc | hc
          · exact hlt.le.trans (hhead c hc)
          · exact hmore c hc
        · cases h
          rcases List.mem_append.mp hc with hc | hc
          · exact hhead c hc
          · exact (not_lt.mp hlt).trans (hmore c hc)

end Ascending

theorem mergeHeads_perm {n : ℕ} {lists : List (List α)} (h : lists.flatten.length ≤ n) :
    (mergeHeads key n lists).Perm lists.flatten := by
  induction n generalizing lists with
  | zero =>
    rw [List.eq_nil_of_length_eq_zero (Nat.le_zero.mp h)]
    exact List.Perm.refl _
  | succ n ih =>
    rw [mergeHeads]
    split
    · rename_i hnone
      rw [takeLeast_none hnone]
    · rename_i a rest htake
      have hp := takeLeast_perm htake
      have hlen : rest.flatten.length ≤ n := by
        have := hp.length_eq
        rw [List.length_cons] at this
        omega
      exact ((ih hlen).cons a).trans hp.symm

/-- Lists that share no key merge into the ascending list of their members. -/
theorem mergeHeads_ascending {n : ℕ} {lists : List (List α)} (hs : AscendingEach key lists)
    (hd : (lists.flatten.map key).Nodup) (h : lists.flatten.length ≤ n) :
    (mergeHeads key n lists).Pairwise fun a b => key a < key b := by
  induction n generalizing lists with
  | zero => exact List.Pairwise.nil
  | succ n ih =>
    rw [mergeHeads]
    split
    · exact List.Pairwise.nil
    · rename_i a rest htake
      have hp := takeLeast_perm htake
      have hlen : rest.flatten.length ≤ n := by
        have := hp.length_eq
        rw [List.length_cons] at this
        omega
      have hnodup := (hp.map key).nodup_iff.mp hd
      rw [List.map_cons, List.nodup_cons] at hnodup
      refine List.pairwise_cons.mpr ⟨fun b hb => ?_, ih (takeLeast_ascending hs htake) hnodup.2 hlen⟩
      have hmem : b ∈ rest.flatten := (mergeHeads_perm hlen).mem_iff.mp hb
      have hle := takeLeast_least hs htake b (hp.mem_iff.mpr (List.mem_cons_of_mem _ hmem))
      refine hle.lt_of_ne fun heq => hnodup.1 ?_
      rw [heq]
      exact List.mem_map_of_mem hmem

/-! ## Lists whose members are related -/

section Related

variable {β : Type} {key' : β → κ} {R : α → β → Prop}

theorem takeLeast_rel (hR : ∀ a b, R a b → key a = key' b) {lists : List (List α)}
    {others : List (List β)} (h : List.Forall₂ (List.Forall₂ R) lists others) :
    Option.Rel (fun p q => R p.1 q.1 ∧ List.Forall₂ (List.Forall₂ R) p.2 q.2)
      (takeLeast key lists) (takeLeast key' others) := by
  induction h with
  | nil => exact .none
  | @cons l m lists others hl hrest ih =>
    cases hl with
    | nil =>
      rw [takeLeast, takeLeast]
      generalize takeLeast key lists = x at ih
      generalize takeLeast key' others = y at ih
      cases ih with
      | none => exact .none
      | some hpq => exact .some ⟨hpq.1, .cons .nil hpq.2⟩
    | cons hab hl =>
      rw [takeLeast, takeLeast]
      generalize takeLeast key lists = x at ih
      generalize takeLeast key' others = y at ih
      cases ih with
      | none => exact .some ⟨hab, .cons hl hrest⟩
      | some hpq =>
        dsimp only
        rw [hR _ _ hab, hR _ _ hpq.1]
        split_ifs
        · exact .some ⟨hpq.1, .cons (.cons hab hl) hpq.2⟩
        · exact .some ⟨hab, .cons hl hrest⟩

/-- Related lists merge into related lists. -/
theorem mergeHeads_rel (hR : ∀ a b, R a b → key a = key' b) (n : ℕ) {lists : List (List α)}
    {others : List (List β)} (h : List.Forall₂ (List.Forall₂ R) lists others) :
    List.Forall₂ R (mergeHeads key n lists) (mergeHeads key' n others) := by
  induction n generalizing lists others with
  | zero => exact .nil
  | succ n ih =>
    have hleast := takeLeast_rel hR h
    rw [mergeHeads, mergeHeads]
    revert hleast
    generalize takeLeast key lists = x
    generalize takeLeast key' others = y
    intro hleast
    cases hleast with
    | none => exact .nil
    | some hpq => exact .cons hpq.1 (ih hpq.2)

end Related

end Adabt.Library
