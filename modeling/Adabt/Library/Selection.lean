import Adabt.Library.Orders
import Mathlib.Data.List.Pairwise
import Mathlib.Data.List.Perm.Basic
import Mathlib.Data.List.Sort

/-! # Sorting and selecting by a comparison

A list sorted by a three-way comparison, and a bounded heap that keeps the first
`k` of the things offered to it. When no two of them tie, the heap ends with the
first `k` of the sorted list, whatever the order of the offers. -/

set_option autoImplicit false

namespace Adabt.Library
open Std

variable {α β κ : Type}

/-- In strictly ascending key order a list is determined by its members. -/
theorem ascending_ext [LinearOrder κ] (key : α → κ) {l m : List α}
    (hl : l.Pairwise fun a b => key a < key b) (hm : m.Pairwise fun a b => key a < key b)
    (h : ∀ a, a ∈ l ↔ a ∈ m) : l = m := by
  have hp : l.Perm m := by
    have hln : l.Nodup := hl.imp fun hab he => hab.ne (congrArg key he)
    have hmn : m.Nodup := hm.imp fun hab he => hab.ne (congrArg key he)
    exact (List.perm_ext_iff_of_nodup hln hmn).mpr h
  exact hp.eq_of_pairwise (fun a b _ _ hab hba => absurd hba hab.asymm) hl hm

/-! ## Ascending lists without repeats -/

section Ascend
variable [LinearOrder α]

def dropRepeats : List α → List α
  | [] => []
  | [a] => [a]
  | a :: b :: rest => if a = b then dropRepeats (b :: rest) else a :: dropRepeats (b :: rest)

/-- Sort and remove the repeats. -/
def ascend (l : List α) : List α := dropRepeats (l.insertionSort (· ≤ ·))

@[simp] theorem mem_dropRepeats {l : List α} {x : α} : x ∈ dropRepeats l ↔ x ∈ l := by
  induction l with
  | nil => rfl
  | cons a l ih =>
    cases l with
    | nil => rfl
    | cons b rest =>
      rw [dropRepeats]
      split_ifs with h
      · rw [ih, h]
        simp
      · simp only [List.mem_cons, ih]

theorem dropRepeats_ascending {l : List α} (h : l.Pairwise (· ≤ ·)) :
    (dropRepeats l).Pairwise (· < ·) := by
  induction l with
  | nil => exact List.Pairwise.nil
  | cons a l ih =>
    obtain ⟨ha, hl⟩ := List.pairwise_cons.mp h
    cases l with
    | nil => exact List.pairwise_singleton _ _
    | cons b rest =>
      rw [dropRepeats]
      split_ifs with hab
      · exact ih hl
      · refine List.pairwise_cons.mpr ⟨fun x hx => ?_, ih hl⟩
        have hlt : a < b := (ha b List.mem_cons_self).lt_of_ne hab
        rcases List.mem_cons.mp (mem_dropRepeats.mp hx) with rfl | hx
        · exact hlt
        · exact hlt.trans_le ((List.pairwise_cons.mp hl).1 x hx)

@[simp] theorem mem_ascend {l : List α} {x : α} : x ∈ ascend l ↔ x ∈ l := by
  rw [ascend, mem_dropRepeats, List.mem_insertionSort]

theorem ascend_ascending (l : List α) : (ascend l).Pairwise (· < ·) :=
  dropRepeats_ascending (List.pairwise_insertionSort _ l)

end Ascend

/-! ## Bounded heaps -/

variable (cmp : α → α → Ordering)

def NotAfter (a b : α) : Prop := (cmp a b).isLE

instance (a b : α) : Decidable (NotAfter cmp a b) := inferInstanceAs (Decidable (_ = true))

/-- A stable sort. -/
def sortBy (l : List α) : List α := l.insertionSort (NotAfter cmp)

def place (x : α) (l : List α) : List α := l.orderedInsert (NotAfter cmp) x

theorem sortBy_perm (l : List α) : (sortBy cmp l).Perm l := List.perm_insertionSort _ l

@[simp] theorem mem_sortBy {l : List α} {a : α} : a ∈ sortBy cmp l ↔ a ∈ l :=
  List.mem_insertionSort _

/-- Offer a thing to a heap of at most `k`, kept in order with its worst last. -/
def offer (k : ℕ) (heap : List α) (x : α) : List α :=
  if heap.length < k then place cmp x heap
  else match heap.getLast? with
    | none => heap
    | some worst => if cmp x worst = .lt then place cmp x heap.dropLast else heap

/-- The things a bounded heap keeps of a list, in order. -/
def selectFirst (k : ℕ) (l : List α) : List α := sortBy cmp (l.foldl (offer cmp k) [])

variable {cmp} {cmp' : β → β → Ordering}

theorem sortBy_map (f : α → β) (l : List α)
    (h : ∀ a ∈ l, ∀ b ∈ l, cmp a b = cmp' (f a) (f b)) :
    (sortBy cmp l).map f = sortBy cmp' (l.map f) := by
  apply List.map_insertionSort
  intro a ha b hb
  rw [NotAfter, NotAfter, h a ha b hb]

theorem place_map (f : α → β) (h : ∀ a b, cmp a b = cmp' (f a) (f b)) (x : α) (l : List α) :
    (place cmp x l).map f = place cmp' (f x) (l.map f) := by
  apply List.map_orderedInsert
  · intro a _
    rw [NotAfter, NotAfter, h]
  · intro a _
    rw [NotAfter, NotAfter, h]

theorem offer_map (f : α → β) (h : ∀ a b, cmp a b = cmp' (f a) (f b)) (k : ℕ) (heap : List α)
    (x : α) : (offer cmp k heap x).map f = offer cmp' k (heap.map f) (f x) := by
  simp only [offer, List.length_map, List.getLast?_map]
  split_ifs with hk
  · exact place_map f h x heap
  · cases heap.getLast? with
    | none => rfl
    | some worst =>
      simp only [Option.map_some, ← h]
      split_ifs with hlt
      · rw [place_map f h, List.map_dropLast]
      · rfl

theorem selectFirst_map (f : α → β) (h : ∀ a b, cmp a b = cmp' (f a) (f b)) (k : ℕ) (l : List α) :
    (selectFirst cmp k l).map f = selectFirst cmp' k (l.map f) := by
  suffices ∀ heap, (l.foldl (offer cmp k) heap).map f =
      (l.map f).foldl (offer cmp' k) (heap.map f) by
    rw [selectFirst, sortBy_map f _ fun a _ b _ => h a b, this []]
    rfl
  induction l with
  | nil => exact fun heap => rfl
  | cons x l ih =>
    intro heap
    rw [List.foldl_cons, ih, offer_map f h, List.map_cons, List.foldl_cons]

/-! ## The heap holds the first of the sorted list -/

theorem take_place_of_after {x : α} {l : List α} {k : ℕ}
    (h : ∀ b ∈ l.take k, ¬ NotAfter cmp x b) (hk : k ≤ l.length) :
    (place cmp x l).take k = l.take k := by
  induction l generalizing k with
  | nil =>
    obtain rfl : k = 0 := by simpa using hk
    rfl
  | cons b l ih =>
    cases k with
    | zero => rfl
    | succ k =>
      have hb : ¬ NotAfter cmp x b := h b (by simp)
      have hrest := ih (k := k) (fun c hc => h c (by simp [hc])) (by simpa using hk)
      rw [place, List.orderedInsert_of_not_le _ _ hb, List.take_succ_cons, List.take_succ_cons]
      exact congrArg (b :: ·) hrest

theorem take_place_of_before {x : α} {l : List α} {k : ℕ} (hk : k < l.length)
    (h : NotAfter cmp x l[k]) : (place cmp x l).take (k + 1) = place cmp x (l.take k) := by
  induction l generalizing k with
  | nil => simp at hk
  | cons b l ih =>
    cases k with
    | zero =>
      have hb : NotAfter cmp x b := h
      simp [place, hb]
    | succ k =>
      by_cases hb : NotAfter cmp x b
      · simp [place, hb]
      · have hrest := ih (k := k) (by simpa using hk) (by simpa using h)
        rw [List.take_succ_cons, place, place, List.orderedInsert_of_not_le _ _ hb,
          List.orderedInsert_of_not_le _ _ hb, List.take_succ_cons]
        exact congrArg (b :: ·) hrest

variable [TransCmp cmp]

theorem place_sorted {x : α} {l : List α} (h : l.Pairwise (NotAfter cmp)) :
    (place cmp x l).Pairwise (NotAfter cmp) := by
  have : Std.Total (NotAfter cmp) := ⟨fun a b => by
    rw [NotAfter, NotAfter, (OrientedCmp.eq_swap : cmp b a = _)]
    cases cmp a b <;> simp⟩
  have : IsTrans α (NotAfter cmp) := ⟨fun a b c => TransCmp.isLE_trans⟩
  exact h.orderedInsert x l

theorem offer_take {x : α} {l : List α} {k : ℕ} (hs : l.Pairwise (NotAfter cmp))
    (hd : ∀ b ∈ l, cmp x b ≠ .eq) (hk : 0 < k) :
    offer cmp k (l.take k) x = (place cmp x l).take k := by
  by_cases hl : l.length < k
  · have hlen : (place cmp x l).length ≤ k := by
      rw [place, List.orderedInsert_length]
      omega
    rw [List.take_of_length_le hl.le, List.take_of_length_le hlen, offer, if_pos hl]
  · obtain ⟨j, rfl⟩ : ∃ j, k = j + 1 := ⟨k - 1, by omega⟩
    have hj : j < l.length := by omega
    have hlen : (l.take (j + 1)).length = j + 1 := by simp; omega
    have hworst : (l.take (j + 1)).getLast? = some l[j] := by
      rw [List.getLast?_eq_getElem?, hlen]
      simp [hj]
    have hdrop : (l.take (j + 1)).dropLast = l.take j := by
      rw [List.dropLast_eq_take, hlen]
      simp [List.take_take]
    rw [offer, if_neg (by omega), hworst]
    simp only
    split_ifs with hlt
    · have hb : NotAfter cmp x l[j] := by rw [NotAfter, hlt]; rfl
      rw [hdrop, take_place_of_before hj hb]
    · have hgt : cmp x l[j] = .gt := by
        cases hc : cmp x l[j] with
        | lt => exact absurd hc hlt
        | eq => exact absurd hc (hd _ (List.getElem_mem hj))
        | gt => rfl
      refine (take_place_of_after (fun b hb hx => ?_) (by omega)).symm
      -- Everything kept is no later than the worst one kept.
      have hle : NotAfter cmp b l[j] := by
        obtain ⟨i, hi, rfl⟩ := List.getElem_of_mem hb
        rw [hlen] at hi
        rw [List.getElem_take]
        rcases Nat.lt_succ_iff_lt_or_eq.mp hi with hij | hij
        · exact List.pairwise_iff_getElem.mp hs i j _ hj hij
        · simp [hij, NotAfter, ReflCmp.compare_self]
      have hxw : (cmp x l[j]).isLE := TransCmp.isLE_trans hx hle
      rw [hgt] at hxw
      exact absurd hxw (by decide)

theorem foldl_offer {rows l : List α} {k : ℕ} (hk : 0 < k) (hs : l.Pairwise (NotAfter cmp))
    (hd : rows.Pairwise fun a b => cmp a b ≠ .eq) (hl : ∀ a ∈ rows, ∀ b ∈ l, cmp a b ≠ .eq) :
    rows.foldl (offer cmp k) (l.take k) =
      (rows.foldl (fun sorted x => place cmp x sorted) l).take k := by
  induction rows generalizing l with
  | nil => rfl
  | cons x rows ih =>
    obtain ⟨hx, hrest⟩ := List.pairwise_cons.mp hd
    rw [List.foldl_cons, List.foldl_cons, offer_take hs (hl x List.mem_cons_self) hk]
    refine ih (place_sorted hs) hrest fun a ha b hb => ?_
    rcases (List.mem_orderedInsert _).mp hb with rfl | hb
    · have := hx a ha
      rw [(OrientedCmp.eq_swap : cmp a b = _)]
      cases hc : cmp b a <;> simp_all
    · exact hl a (List.mem_cons_of_mem _ ha) b hb

theorem foldl_place_sorted (rows : List α) {l : List α} (h : l.Pairwise (NotAfter cmp)) :
    (rows.foldl (fun sorted x => place cmp x sorted) l).Pairwise (NotAfter cmp) := by
  induction rows generalizing l with
  | nil => exact h
  | cons x rows ih => exact ih (place_sorted h)

omit [TransCmp cmp] in
theorem foldl_place_perm (rows l : List α) :
    (rows.foldl (fun sorted x => place cmp x sorted) l).Perm (rows ++ l) := by
  induction rows generalizing l with
  | nil => exact List.Perm.refl _
  | cons x rows ih =>
    refine (ih _).trans ?_
    exact ((List.perm_orderedInsert _ x l).append_left rows).trans List.perm_middle

theorem sortBy_sorted (l : List α) : (sortBy cmp l).Pairwise (NotAfter cmp) := by
  induction l with
  | nil => exact List.Pairwise.nil
  | cons x l ih => exact place_sorted ih

omit [TransCmp cmp] in
theorem apart_symm [OrientedCmp cmp] {a b : α} (h : cmp a b ≠ .eq) : cmp b a ≠ .eq := by
  rw [(OrientedCmp.eq_swap : cmp b a = _)]
  cases hc : cmp a b <;> simp_all

/-- Sorted lists of the same things, no two of which tie, are equal. -/
theorem sorted_unique {l m : List α} (hp : l.Perm m) (hl : l.Pairwise (NotAfter cmp))
    (hm : m.Pairwise (NotAfter cmp)) (hd : l.Pairwise fun a b => cmp a b ≠ .eq) : l = m := by
  refine hp.eq_of_pairwise (fun a b ha hb hab hba => ?_) hl hm
  by_contra hne
  have : Std.Symm fun a b => cmp a b ≠ .eq := ⟨fun _ _ => apart_symm⟩
  have htie : cmp a b ≠ .eq := hd.forall ha (hp.mem_iff.mpr hb) hne
  have hlt : cmp a b = .lt := by
    rw [NotAfter] at hab
    cases hc : cmp a b <;> simp_all
  rw [NotAfter, (OrientedCmp.eq_swap : cmp b a = _), hlt] at hba
  exact absurd hba (by decide)

theorem selectFirst_of_transCmp {rows sorted : List α} {k : ℕ} (hk : 0 < k) (hp : rows.Perm sorted)
    (hd : rows.Pairwise fun a b => cmp a b ≠ .eq) :
    selectFirst cmp k rows = (sortBy cmp sorted).take k := by
  have h := foldl_offer hk List.Pairwise.nil hd (l := []) (by simp)
  rw [List.take_nil] at h
  have hrows : (rows.foldl (fun sorted x => place cmp x sorted) []).Perm (rows ++ []) :=
    foldl_place_perm rows []
  rw [List.append_nil] at hrows
  have hsorted : (rows.foldl (fun sorted x => place cmp x sorted) []) = sortBy cmp sorted := by
    refine sorted_unique ?_ (foldl_place_sorted rows List.Pairwise.nil) (sortBy_sorted sorted) ?_
    · exact hrows.trans (hp.trans (sortBy_perm cmp sorted).symm)
    · exact (hrows.pairwise_iff (fun h => apart_symm h)).mpr hd
  rw [selectFirst, h, hsorted]
  exact ((sortBy_sorted sorted).sublist (List.take_sublist _ _)).insertionSort_eq

omit [TransCmp cmp] in
/-- On things that compare as points of a line, the comparison is transitive. -/
theorem transCmp_linked {l : List α} (ho : ∀ a b, cmp a b = (cmp b a).swap)
    (hl : ∀ a ∈ l, ∀ b ∈ l, ∀ c ∈ l, Linked (cmp a b) (cmp b c) (cmp a c)) :
    TransCmp fun a b : {a // a ∈ l} => cmp a.1 b.1 where
  eq_swap := ho _ _
  isLE_trans := fun {a b c} hab hbc => by
    rw [Ordering.isLE_iff_ne_gt] at hab hbc
    rw [Ordering.isLE_iff_ne_gt, hl a a.2 b b.2 c c.2 hab hbc]
    cases hc : cmp a.1 b.1 with
    | lt => exact nofun
    | eq => exact hbc
    | gt => exact absurd hc hab

omit [TransCmp cmp] in
/-- Among things that compare as points of a line and do not tie, a heap of `k`
ends with the first `k` of them in order. -/
theorem selectFirst_eq {rows sorted : List α} {k : ℕ} (hk : 0 < k) (hp : rows.Perm sorted)
    (ho : ∀ a b, cmp a b = (cmp b a).swap)
    (hl : ∀ a ∈ sorted, ∀ b ∈ sorted, ∀ c ∈ sorted, Linked (cmp a b) (cmp b c) (cmp a c))
    (hd : rows.Pairwise fun a b => cmp a b ≠ .eq) :
    selectFirst cmp k rows = (sortBy cmp sorted).take k := by
  let cmpIn : {a // a ∈ sorted} → {a // a ∈ sorted} → Ordering := fun a b => cmp a.1 b.1
  have : TransCmp cmpIn := transCmp_linked ho hl
  have hrows : ∃ l : List {a // a ∈ sorted}, l.map Subtype.val = rows :=
    ⟨rows.attachWith _ fun a ha => hp.mem_iff.mp ha, by simp⟩
  obtain ⟨l, rfl⟩ := hrows
  have hsort : sorted.attach.map Subtype.val = sorted := List.attach_map_subtype_val sorted
  have hpl : l.Perm sorted.attach := by
    rw [← List.map_perm_map_iff Subtype.val_injective, hsort]
    exact hp
  have hdl : l.Pairwise fun a b => cmpIn a b ≠ .eq := List.pairwise_map.mp hd
  rw [← @selectFirst_map _ _ cmpIn _ Subtype.val (fun _ _ => rfl),
    selectFirst_of_transCmp hk hpl hdl, List.map_take,
    @sortBy_map _ _ _ cmp Subtype.val _ (fun _ _ _ _ => rfl), hsort]

/-! ## Sorting and filtering -/

omit [TransCmp cmp] in
theorem filter_place_of_not {p : α → Bool} {x : α} (hx : p x = false) (l : List α) :
    (place cmp x l).filter p = l.filter p := by
  induction l with
  | nil => simp [place, hx]
  | cons b l ih =>
    rw [place, List.orderedInsert_cons]
    split_ifs
    · rw [List.filter_cons_of_neg (by simp [hx])]
    · rw [List.filter_cons, List.filter_cons, ← place, ih]

theorem filter_place {p : α → Bool} {x : α} (hx : p x = true) {l : List α}
    (hl : l.Pairwise (NotAfter cmp)) : (place cmp x l).filter p = place cmp x (l.filter p) := by
  induction l with
  | nil => simp [place, hx]
  | cons b l ih =>
    obtain ⟨hb, hl⟩ := List.pairwise_cons.mp hl
    rw [place, List.orderedInsert_cons]
    split_ifs with h
    · -- All that the filter leaves is after the head.
      rw [List.filter_cons_of_pos hx, place]
      cases hf : (b :: l).filter p with
      | nil => rfl
      | cons c m =>
        have hc : c ∈ b :: l := List.mem_of_mem_filter (hf ▸ List.mem_cons_self)
        have hxc : NotAfter cmp x c := by
          rcases List.mem_cons.mp hc with rfl | hc
          · exact h
          · exact TransCmp.isLE_trans h (hb c hc)
        rw [List.orderedInsert_cons_of_le _ _ hxc]
    · rw [List.filter_cons, List.filter_cons, ← place, ih hl]
      split_ifs
      · rw [place, place, List.orderedInsert_of_not_le _ _ h]
      · rfl

theorem sortBy_filter_of_transCmp (p : α → Bool) (l : List α) :
    (sortBy cmp l).filter p = sortBy cmp (l.filter p) := by
  induction l with
  | nil => rfl
  | cons x l ih =>
    have hplace : sortBy cmp (x :: l) = place cmp x (sortBy cmp l) := rfl
    rw [hplace, List.filter_cons]
    split_ifs with hx
    · rw [filter_place hx (sortBy_sorted l), ih]
      rfl
    · rw [filter_place_of_not (by simpa using hx), ih]

omit [TransCmp cmp] in
/-- Of things that compare as points of a line, a sort and a filter may be done in
either order. -/
theorem sortBy_filter (p : α → Bool) {l : List α} (ho : ∀ a b, cmp a b = (cmp b a).swap)
    (hl : ∀ a ∈ l, ∀ b ∈ l, ∀ c ∈ l, Linked (cmp a b) (cmp b c) (cmp a c)) :
    (sortBy cmp l).filter p = sortBy cmp (l.filter p) := by
  let cmpIn : {a // a ∈ l} → {a // a ∈ l} → Ordering := fun a b => cmp a.1 b.1
  have : TransCmp cmpIn := transCmp_linked ho hl
  have hval : ∀ m : List {a // a ∈ l}, (sortBy cmpIn m).map Subtype.val =
      sortBy cmp (m.map Subtype.val) := fun m => sortBy_map Subtype.val m fun _ _ _ _ => rfl
  have h := congrArg (List.map Subtype.val)
    (@sortBy_filter_of_transCmp _ cmpIn _ (fun a => p a.1) l.attach)
  have hfilter : ∀ m : List {a // a ∈ l}, (m.filter fun a => p a.1).map Subtype.val =
      (m.map Subtype.val).filter p := fun m => List.filter_map.symm
  rw [hfilter, hval, hval, hfilter, List.attach_map_subtype_val] at h
  exact h

/-! ## The best of a list -/

section KeepBest

/-- Keep the best so far. -/
def keepBest (better : α → α → Bool) (best : Option α) (a : α) : Option α :=
  match best with
  | none => some a
  | some b => if better a b then some a else some b

variable [LinearOrder κ] {key : α → κ} {better : α → α → Bool}

theorem foldl_keepBest_some (h : ∀ a b, better a b = true ↔ key b < key a) (xs : List α) (b : α) :
    ∃ c, xs.foldl (keepBest better) (some b) = some c ∧ c ∈ b :: xs ∧
      ∀ a ∈ b :: xs, key a ≤ key c := by
  induction xs generalizing b with
  | nil => exact ⟨b, rfl, List.mem_cons_self, fun a ha => by rw [List.mem_singleton.mp ha]⟩
  | cons x xs ih =>
    by_cases hx : better x b
    · obtain ⟨c, hc, hmem, hbest⟩ := ih x
      refine ⟨c, ?_, List.mem_cons_of_mem _ hmem, List.forall_mem_cons.mpr ⟨?_, hbest⟩⟩
      · rw [List.foldl_cons, keepBest, if_pos hx, hc]
      · exact ((h x b).mp hx).le.trans (hbest x List.mem_cons_self)
    · obtain ⟨c, hc, hmem, hbest⟩ := ih b
      have hle : key x ≤ key b := le_of_not_gt fun hlt => hx ((h x b).mpr hlt)
      obtain ⟨hb, hxs⟩ := List.forall_mem_cons.mp hbest
      refine ⟨c, ?_, ?_, List.forall_mem_cons.mpr ⟨hb, List.forall_mem_cons.mpr ⟨hle.trans hb, hxs⟩⟩⟩
      · rw [List.foldl_cons, keepBest, if_neg hx, hc]
      · rcases List.mem_cons.mp hmem with rfl | hmem
        · exact List.mem_cons_self
        · exact List.mem_cons_of_mem _ (List.mem_cons_of_mem _ hmem)

/-- There is a best one unless there is none at all, and it is one that no other beats. -/
theorem foldl_keepBest (h : ∀ a b, better a b = true ↔ key b < key a) (xs : List α) :
    (xs.foldl (keepBest better) none = none ↔ xs = []) ∧
      ∀ c, xs.foldl (keepBest better) none = some c → c ∈ xs ∧ ∀ a ∈ xs, key a ≤ key c := by
  cases xs with
  | nil => exact ⟨⟨fun _ => rfl, fun _ => rfl⟩, fun c hc => by cases hc⟩
  | cons x xs =>
    obtain ⟨c, hc, hmem, hbest⟩ := foldl_keepBest_some h xs x
    have hfold : (x :: xs).foldl (keepBest better) none = some c := hc
    rw [hfold]
    constructor
    · constructor
      · intro hnone
        cases hnone
      · intro hnil
        cases hnil
    · intro d hd
      cases hd
      exact ⟨hmem, hbest⟩

end KeepBest

end Adabt.Library
