import Mathlib.Data.List.Basic
import Mathlib.Data.List.Induction
import Mathlib.Data.List.Nodup
import Mathlib.Data.List.Pairwise

/-! # Tables keyed by what answers to a key

A table files each value under the first of its keys that answers to the key of
the value. Where answering is an equivalence, a key finds the values filed with
an equivalent one, in the order they came. -/

set_option autoImplicit false

namespace Adabt.Library.KeyTable

variable {κ β : Type} (same : κ → κ → Bool)

/-- File a value, under its own key if none of the table answers. -/
def file (k : κ) (v : β) : List (κ × List β) → List (κ × List β)
  | [] => [(k, [v])]
  | e :: es => if same e.1 k then (e.1, e.2 ++ [v]) :: es else e :: file k v es

def build (rows : List (κ × β)) : List (κ × List β) :=
  rows.foldl (fun t r => file same r.1 r.2 t) []

def find (k : κ) (t : List (κ × List β)) : Option (List β) :=
  (t.find? fun e => same e.1 k).map (·.2)

/-- Answering is an equivalence between the keys of a set. -/
structure Classes (S : κ → Prop) : Prop where
  refl : ∀ a, S a → same a a = true
  symm : ∀ a b, S a → S b → same a b = true → same b a = true
  trans : ∀ a b c, S a → S b → S c → same a b = true → same b c = true → same a c = true

variable {same} {S : κ → Prop} (h : Classes same S) {k k' : κ}
include h

/-- Two keys of a class are answered by the same keys. -/
theorem Classes.congr (hk : S k) (hk' : S k') (hs : same k k' = true) {a : κ} (ha : S a) :
    same a k = same a k' := by
  rw [Bool.eq_iff_iff]
  exact ⟨fun hak => h.trans a k k' ha hk hk' hak hs,
    fun hak => h.trans a k' k ha hk' hk hak (h.symm k k' hk hk' hs)⟩

omit h in
theorem keys_file (v : β) {t : List (κ × List β)} (ht : ∀ e ∈ t, S e.1) (hk : S k) :
    ∀ e ∈ file same k v t, S e.1 := by
  induction t with
  | nil =>
    intro e he
    rw [List.mem_singleton.mp he]
    exact hk
  | cons a t ih =>
    have hrest := ih fun e he => ht e (List.mem_cons_of_mem _ he)
    intro e he
    rw [file] at he
    split at he
    · rcases List.mem_cons.mp he with rfl | he
      · exact ht a List.mem_cons_self
      · exact ht e (List.mem_cons_of_mem _ he)
    · rcases List.mem_cons.mp he with rfl | he
      · exact ht e List.mem_cons_self
      · exact hrest e he

/-- A value filed is found by the keys of its class and by no others. -/
theorem find_file (v : β) {t : List (κ × List β)} (ht : ∀ e ∈ t, S e.1) (hk : S k) (hk' : S k') :
    (find same k' (file same k v t)).getD [] =
      (find same k' t).getD [] ++ if same k k' then [v] else [] := by
  induction t with
  | nil =>
    rw [file, find, find, List.find?_cons]
    cases same k k' <;> rfl
  | cons a t ih =>
    have ha := ht a List.mem_cons_self
    have hrest := ih fun e he => ht e (List.mem_cons_of_mem _ he)
    rw [find] at hrest ⊢
    rw [file]
    by_cases hkk : same k k' = true
    · rw [if_pos hkk] at hrest ⊢
      rw [h.congr hk hk' hkk ha]
      cases hak : same a.1 k' with
      | true => simp [find, hak]
      | false => simpa [find, List.find?_cons, hak] using hrest
    · rw [if_neg hkk] at hrest ⊢
      cases hak : same a.1 k with
      | true =>
        have hak' : same a.1 k' = false := by
          by_contra hne
          exact hkk (h.trans k a.1 k' hk ha hk' (h.symm a.1 k ha hk hak) (by simpa using hne))
        simp [find, hak']
      | false =>
        cases hak' : same a.1 k' with
        | true => simp [find, hak']
        | false => simpa [find, List.find?_cons, hak'] using hrest

/-- A key finds the values of the rows whose keys are of its class. -/
theorem find_build {rows : List (κ × β)} (hrows : ∀ r ∈ rows, S r.1) (hk : S k) :
    (find same k (build same rows)).getD [] =
      (rows.filter fun r => same r.1 k).map (·.2) := by
  have hboth : (∀ e ∈ build same rows, S e.1) ∧ (find same k (build same rows)).getD [] =
      (rows.filter fun r => same r.1 k).map (·.2) := by
    induction rows using List.reverseRecOn with
    | nil => exact ⟨fun e he => absurd he List.not_mem_nil, rfl⟩
    | append_singleton rows r ih =>
      obtain ⟨hkeys, hfind⟩ := ih fun e he => hrows e (List.mem_append_left _ he)
      have hr := hrows r (List.mem_append_right _ (List.mem_singleton_self r))
      have hbuild : build same (rows ++ [r]) = file same r.1 r.2 (build same rows) := by
        rw [build, List.foldl_append]
        rfl
      rw [hbuild]
      constructor
      · exact keys_file r.2 hkeys hr
      · rw [find_file h r.2 hkeys hr hk, hfind, List.filter_append, List.map_append]
        congr 1
        cases hs : same r.1 k <;> simp [hs]
  exact hboth.2

end Adabt.Library.KeyTable

/-! ## Sets of pairs under an equivalence of keys -/

namespace Adabt.Library.Pairs

variable {κ ι : Type} (same : κ → κ → Bool)

/-- The keys that occur, one of each class. -/
def keys (s : List (κ × ι)) : List κ := (s.map Prod.fst).pwFilter fun a b => same a b = false

def Has (s : List (κ × ι)) (k : κ) (i : ι) : Prop := ∃ p ∈ s, same p.1 k = true ∧ p.2 = i

variable {same} {S : κ → Prop} {s : List (κ × ι)} {k k' : κ} {i i' : ι}

theorem exists_mem_keys (hrefl : ∀ p ∈ s, same p.1 p.1 = true) :
    ∀ p ∈ s, ∃ a ∈ keys same s, same p.1 a = true := by
  induction s with
  | nil => exact fun p hp => absurd hp List.not_mem_nil
  | cons q s ih =>
    have hrest := ih fun p hp => hrefl p (List.mem_cons_of_mem _ hp)
    intro p hp
    rw [keys, List.map_cons]
    by_cases hnew : ∀ b ∈ keys same s, same q.1 b = false
    · rw [List.pwFilter_cons_of_pos hnew]
      rcases List.mem_cons.mp hp with rfl | hp
      · exact ⟨p.1, List.mem_cons_self, hrefl p List.mem_cons_self⟩
      · obtain ⟨a, ha, hsame⟩ := hrest p hp
        exact ⟨a, List.mem_cons_of_mem _ ha, hsame⟩
    · rw [List.pwFilter_cons_of_neg hnew]
      rcases List.mem_cons.mp hp with rfl | hp
      · push Not at hnew
        obtain ⟨b, hb, hsame⟩ := hnew
        exact ⟨b, hb, by simpa using hsame⟩
      · exact hrest p hp

theorem exists_of_mem_keys {a : κ} (ha : a ∈ keys same s) : ∃ i, (a, i) ∈ s := by
  obtain ⟨p, hp, rfl⟩ := List.mem_map.mp (List.pwFilter_subset _ ha)
  exact ⟨p.2, hp⟩

variable [DecidableEq ι] (same)

def samePair (p q : κ × ι) : Bool := same p.1 q.1 && decide (p.2 = q.2)

def insert (k : κ) (i : ι) (s : List (κ × ι)) : List (κ × ι) :=
  if s.any fun p => samePair same p (k, i) then s else (k, i) :: s

def remove (k : κ) (i : ι) (s : List (κ × ι)) : List (κ × ι) :=
  s.filter fun p => !samePair same p (k, i)

/-- No pair stands twice. -/
def Distinct (s : List (κ × ι)) : Prop := s.Pairwise fun p q => samePair same p q = false

variable {same}

theorem samePair_iff {p q : κ × ι} :
    samePair same p q = true ↔ same p.1 q.1 = true ∧ p.2 = q.2 := by
  rw [samePair, Bool.and_eq_true, decide_eq_true_eq]

theorem any_samePair_iff :
    (s.any fun p => samePair same p (k, i)) = true ↔ Has same s k i := by
  rw [List.any_eq_true]
  exact exists_congr fun p => and_congr_right fun _ => samePair_iff

theorem insert_of_has (h : Has same s k i) : insert same k i s = s :=
  if_pos (any_samePair_iff.mpr h)

theorem insert_of_not_has (h : ¬Has same s k i) : insert same k i s = (k, i) :: s :=
  if_neg fun hany => h (any_samePair_iff.mp hany)

theorem remove_of_not_has (h : ¬Has same s k i) : remove same k i s = s := by
  refine List.filter_eq_self.mpr fun p hp => ?_
  rw [Bool.not_eq_true', Bool.eq_false_iff]
  exact fun hpair => h ⟨p, hp, samePair_iff.mp hpair⟩

theorem keyed_insert (hs : ∀ p ∈ s, S p.1) (hk : S k) : ∀ p ∈ insert same k i s, S p.1 := by
  intro p hp
  rw [insert] at hp
  split_ifs at hp
  · exact hs p hp
  · rcases List.mem_cons.mp hp with rfl | hp
    · exact hk
    · exact hs p hp

theorem keyed_remove (hs : ∀ p ∈ s, S p.1) (k : κ) (i : ι) : ∀ p ∈ remove same k i s, S p.1 :=
  fun p hp => hs p (List.mem_of_mem_filter hp)

theorem Distinct.remove (h : Distinct same s) (k : κ) (i : ι) : Distinct same (remove same k i s) :=
  h.filter _

section Classes

variable (h : KeyTable.Classes same S)
include h

theorem has_insert (hs : ∀ p ∈ s, S p.1) (hk : S k) (hk' : S k') :
    Has same (insert same k i s) k' i' ↔ same k k' = true ∧ i = i' ∨ Has same s k' i' := by
  rw [insert]
  split_ifs with hany
  · refine (or_iff_right_of_imp ?_).symm
    rintro ⟨hsame, rfl⟩
    obtain ⟨p, hp, hpair⟩ := List.any_eq_true.mp hany
    obtain ⟨hpk, hpi⟩ := samePair_iff.mp hpair
    exact ⟨p, hp, h.trans p.1 k k' (hs p hp) hk hk' hpk hsame, hpi⟩
  · simp only [Has, List.mem_cons, exists_eq_or_imp]

theorem has_remove (hs : ∀ p ∈ s, S p.1) (hk : S k) (hk' : S k') :
    Has same (remove same k i s) k' i' ↔ Has same s k' i' ∧ ¬(same k k' = true ∧ i = i') := by
  constructor
  · rintro ⟨p, hp, hpk, hpi⟩
    obtain ⟨hmem, hkept⟩ := List.mem_filter.mp hp
    refine ⟨⟨p, hmem, hpk, hpi⟩, fun ⟨hsame, heq⟩ => ?_⟩
    have hgone : samePair same p (k, i) = true := samePair_iff.mpr
      ⟨h.trans p.1 k' k (hs p hmem) hk' hk hpk (h.symm k k' hk hk' hsame), hpi.trans heq.symm⟩
    simp [hgone] at hkept
  · rintro ⟨⟨p, hp, hpk, hpi⟩, hne⟩
    refine ⟨p, List.mem_filter.mpr ⟨hp, ?_⟩, hpk, hpi⟩
    rw [Bool.not_eq_true', Bool.eq_false_iff]
    intro hpair
    obtain ⟨hkey, hid⟩ := samePair_iff.mp hpair
    exact hne ⟨h.trans k p.1 k' hk (hs p hp) hk' (h.symm p.1 k (hs p hp) hk hkey) hpk,
      hid.symm.trans hpi⟩

theorem Distinct.insert (hd : Distinct same s) (hs : ∀ p ∈ s, S p.1) (hk : S k) :
    Distinct same (Pairs.insert same k i s) := by
  rw [Pairs.insert]
  split_ifs with hany
  · exact hd
  · refine List.pairwise_cons.mpr ⟨fun p hp => ?_, hd⟩
    refine Bool.eq_false_iff.mpr fun hsame => hany (List.any_eq_true.mpr ⟨p, hp, ?_⟩)
    obtain ⟨hkey, hid⟩ := samePair_iff.mp hsame
    exact samePair_iff.mpr ⟨h.symm k p.1 hk (hs p hp) hkey, hid.symm⟩

/-- Taking out a pair that is in takes out one pair. -/
theorem length_remove_of_has (hd : Distinct same s) (hs : ∀ p ∈ s, S p.1) (hk : S k)
    (hhas : Has same s k i) : (Pairs.remove same k i s).length + 1 = s.length := by
  induction s with
  | nil =>
    obtain ⟨p, hp, -⟩ := hhas
    exact absurd hp List.not_mem_nil
  | cons q s ih =>
    obtain ⟨hfirst, hrest⟩ := List.pairwise_cons.mp hd
    have hq := hs q List.mem_cons_self
    have htail : ∀ p ∈ s, S p.1 := fun p hp => hs p (List.mem_cons_of_mem _ hp)
    cases hpair : samePair same q (k, i) with
    | true =>
      obtain ⟨hqk, hqi⟩ := samePair_iff.mp hpair
      have hnot : ¬Has same s k i := by
        rintro ⟨p, hp, hpk, hpi⟩
        have hqp := h.trans q.1 k p.1 hq hk (htail p hp) hqk (h.symm p.1 k (htail p hp) hk hpk)
        exact absurd (samePair_iff.mpr ⟨hqp, hqi.trans hpi.symm⟩) (by simp [hfirst p hp])
      have hkept := remove_of_not_has hnot
      rw [Pairs.remove] at hkept ⊢
      rw [List.filter_cons_of_neg (by simp [hpair]), hkept, List.length_cons]
    | false =>
      have hrem := ih hrest htail (by
        obtain ⟨p, hp, hpk, hpi⟩ := hhas
        rcases List.mem_cons.mp hp with rfl | hp
        · rw [samePair_iff.mpr ⟨hpk, hpi⟩] at hpair
          exact absurd hpair.symm Bool.false_ne_true
        · exact ⟨p, hp, hpk, hpi⟩)
      rw [Pairs.remove] at hrem ⊢
      rw [List.filter_cons_of_pos (by simp [hpair]), List.length_cons, List.length_cons, hrem]

end Classes

/-- Lists without repeats that answer each other, element for element, are of one length. -/
theorem length_le_of_covers {α : Type} {R : α → α → Prop} {l m : List α}
    (hl : l.Pairwise fun a b => ¬R a b) (hcover : ∀ a ∈ l, ∃ b ∈ m, R a b)
    (hback : ∀ a ∈ l, ∀ a' ∈ l, ∀ b ∈ m, R a b → R a' b → R a a') : l.length ≤ m.length := by
  induction l generalizing m with
  | nil => exact Nat.zero_le _
  | cons a l ih =>
    obtain ⟨hfirst, hrest⟩ := List.pairwise_cons.mp hl
    obtain ⟨b, hb, hab⟩ := hcover a List.mem_cons_self
    obtain ⟨before, behind, rfl⟩ := List.append_of_mem hb
    have hother := @ih (before ++ behind) hrest (fun c hc => ?_) (fun c hc c' hc' d hd => ?_)
    · simp only [List.length_append, List.length_cons] at hother ⊢
      omega
    · obtain ⟨d, hd, hcd⟩ := hcover c (List.mem_cons_of_mem _ hc)
      refine ⟨d, ?_, hcd⟩
      rcases List.mem_append.mp hd with hd | hd
      · exact List.mem_append_left _ hd
      · rcases List.mem_cons.mp hd with rfl | hd
        · exact absurd (hback a List.mem_cons_self c (List.mem_cons_of_mem _ hc) d hb hab hcd)
            (hfirst c hc)
        · exact List.mem_append_right _ hd
    · refine hback c (List.mem_cons_of_mem _ hc) c' (List.mem_cons_of_mem _ hc') d ?_
      rcases List.mem_append.mp hd with hd | hd
      · exact List.mem_append_left _ hd
      · exact List.mem_append_right _ (List.mem_cons_of_mem _ hd)

/-- Two sets of pairs that hold the same are of one size. -/
theorem length_le_of_has (h : KeyTable.Classes same S) {t : List (κ × ι)} (hd : Distinct same s)
    (hs : ∀ p ∈ s, S p.1) (ht : ∀ p ∈ t, S p.1)
    (hhas : ∀ p ∈ s, Has same t p.1 p.2) : s.length ≤ t.length := by
  refine length_le_of_covers (R := fun p q => same p.1 q.1 = true ∧ p.2 = q.2) (hd.imp ?_) ?_ ?_
  · intro p q hpq hsame
    rw [samePair_iff.mpr hsame] at hpq
    exact absurd hpq.symm Bool.false_ne_true
  · intro p hp
    obtain ⟨q, hq, hqp, heq⟩ := hhas p hp
    exact ⟨q, hq, h.symm q.1 p.1 (ht q hq) (hs p hp) hqp, heq.symm⟩
  · rintro p hp p' hp' q hq ⟨hpq, hpi⟩ ⟨hpq', hpi'⟩
    exact ⟨h.trans p.1 q.1 p'.1 (hs p hp) (ht q hq) (hs p' hp') hpq
      (h.symm p'.1 q.1 (hs p' hp') (ht q hq) hpq'), hpi.trans hpi'.symm⟩

end Adabt.Library.Pairs
