import Adabt.Library.Orders
import Mathlib.Data.List.Basic
import Mathlib.Data.List.Forall2
import Mathlib.Data.List.Induction

/-! # Ordered tables of groups

A table lists keys in ascending order, each with something accumulated for it.
What a walk over a list accumulates for a key depends on the elements with that
key alone, and on a table's order only through ties. -/

set_option autoImplicit false

namespace Adabt.Library

variable {α β γ κ : Type}

variable (cmp : κ → κ → Ordering)

/-! ## Tables -/

/-- Change what is accumulated for a key, from a fresh start if there is nothing. -/
def upsert (key : κ) (fresh : β) (f : β → β) : List (κ × β) → List (κ × β)
  | [] => [(key, f fresh)]
  | b :: rest => match cmp key b.1 with
    | .lt => (key, f fresh) :: b :: rest
    | .eq => (b.1, f b.2) :: rest
    | .gt => b :: upsert key fresh f rest

/-- Change what is accumulated for a key, or drop the key, if it is there. -/
def revise (key : κ) (f : β → Option β) : List (κ × β) → List (κ × β)
  | [] => []
  | b :: rest => match cmp key b.1 with
    | .lt => b :: rest
    | .eq => ((f b.2).map fun v => (b.1, v)).toList ++ rest
    | .gt => b :: revise key f rest

def Ascending (t : List (κ × β)) : Prop := t.Pairwise fun a b => cmp a.1 b.1 = .lt

/-- Every element of the list beside the others with its key, under the first such key. -/
def buckets (keyOf : α → κ) (l : List α) : List (κ × List α) :=
  l.foldl (fun t a => upsert cmp (keyOf a) [] (· ++ [a]) t) []

theorem map_upsert {h : β → γ} {f : β → β} {f' : γ → γ} (hf : ∀ v, h (f v) = f' (h v))
    (key : κ) (fresh : β) (t : List (κ × β)) :
    (upsert cmp key fresh f t).map (fun b => (b.1, h b.2)) =
      upsert cmp key (h fresh) f' (t.map fun b => (b.1, h b.2)) := by
  induction t with
  | nil => simp only [upsert, List.map_cons, List.map_nil, hf]
  | cons b rest ih =>
    rw [List.map_cons, upsert, upsert]
    cases cmp key b.1 with
    | lt => simp only [List.map_cons, hf]
    | eq => simp only [List.map_cons, hf]
    | gt => simp only [List.map_cons, ih]

theorem buckets_snoc (keyOf : α → κ) (l : List α) (a : α) :
    buckets cmp keyOf (l ++ [a]) =
      upsert cmp (keyOf a) [] (· ++ [a]) (buckets cmp keyOf l) := by
  rw [buckets, List.foldl_append]
  rfl

/-- A walk accumulates for each key what its elements add up to, in their order. -/
theorem foldl_upsert (keyOf : α → κ) (step : β → α → β) (fresh : β) (l : List α) :
    l.foldl (fun t a => upsert cmp (keyOf a) fresh (fun v => step v a) t) [] =
      (buckets cmp keyOf l).map fun b => (b.1, b.2.foldl step fresh) := by
  induction l using List.reverseRecOn with
  | nil => rfl
  | append_singleton l a ih =>
    rw [List.foldl_append, List.foldl_cons, List.foldl_nil, ih, buckets_snoc]
    rw [@map_upsert _ _ _ cmp (fun ms => List.foldl step fresh ms) _ (fun v => step v a)]
    · rfl
    · intro ms
      rw [List.foldl_append]
      rfl

theorem upsert_ne_nil (key : κ) (fresh : β) (f : β → β) (t : List (κ × β)) :
    upsert cmp key fresh f t ≠ [] := by
  cases t with
  | nil => exact List.cons_ne_nil _ _
  | cons b rest =>
    rw [upsert]
    cases cmp key b.1 <;> exact List.cons_ne_nil _ _

theorem buckets_eq_nil {keyOf : α → κ} {l : List α} : buckets cmp keyOf l = [] ↔ l = [] := by
  induction l using List.reverseRecOn with
  | nil => exact ⟨fun _ => rfl, fun _ => rfl⟩
  | append_singleton l a _ =>
    rw [buckets_snoc]
    simp [upsert_ne_nil]

/-! ## What a table holds -/

variable {cmp} {K : κ → Prop}

theorem Ascending.tail {b : κ × β} {t : List (κ × β)} (h : Ascending cmp (b :: t)) :
    Ascending cmp t := (List.pairwise_cons.mp h).2

section Line

variable (hK : LineOn cmp K) {key : κ} {t : List (κ × β)} (hkey : K key) (ht : ∀ b ∈ t, K b.1)
  (ha : Ascending cmp t)
include hK hkey ht ha

/-- A key below the first is below all. -/
theorem lt_of_lt_head {b : κ × β} {rest : List (κ × β)} (he : t = b :: rest)
    (h : cmp key b.1 = .lt) : ∀ c ∈ rest, cmp key c.1 = .lt := by
  subst he
  intro c hc
  exact hK.lt_trans hkey (ht b List.mem_cons_self) (ht c (List.mem_cons_of_mem _ hc)) h
    ((List.pairwise_cons.mp ha).1 c hc)

theorem lt_of_eq_head {b : κ × β} {rest : List (κ × β)} (he : t = b :: rest)
    (h : cmp key b.1 = .eq) : ∀ c ∈ rest, cmp key c.1 = .lt := by
  subst he
  intro c hc
  rw [hK.congr_left hkey (ht b List.mem_cons_self) (ht c (List.mem_cons_of_mem _ hc)) h]
  exact (List.pairwise_cons.mp ha).1 c hc

theorem mem_upsert {fresh : β} {f : β → β} {x : κ × β} :
    x ∈ upsert cmp key fresh f t ↔
      (∃ b ∈ t, cmp key b.1 = .eq ∧ x = (b.1, f b.2)) ∨ (x ∈ t ∧ cmp key x.1 ≠ .eq) ∨
        ((∀ b ∈ t, cmp key b.1 ≠ .eq) ∧ x = (key, f fresh)) := by
  induction t with
  | nil => simp [upsert]
  | cons b rest ih =>
    have hrest : ∀ c ∈ rest, K c.1 := fun c hc => ht c (List.mem_cons_of_mem _ hc)
    rw [upsert]
    cases hc : cmp key b.1 with
    | lt =>
      have hlt := lt_of_lt_head hK hkey ht ha rfl hc
      have hne : ∀ c ∈ b :: rest, cmp key c.1 ≠ .eq := by
        intro c hmem
        rcases List.mem_cons.mp hmem with rfl | hmem
        · simp [hc]
        · simp [hlt c hmem]
      constructor
      · intro hx
        rcases List.mem_cons.mp hx with rfl | hx
        · exact .inr (.inr ⟨hne, rfl⟩)
        · exact .inr (.inl ⟨hx, hne x hx⟩)
      · rintro (⟨c, hmem, he, -⟩ | ⟨hx, -⟩ | ⟨-, rfl⟩)
        · exact absurd he (hne c hmem)
        · exact List.mem_cons_of_mem _ hx
        · exact List.mem_cons_self
    | eq =>
      have hlt := lt_of_eq_head hK hkey ht ha rfl hc
      constructor
      · intro hx
        rcases List.mem_cons.mp hx with rfl | hx
        · exact .inl ⟨b, List.mem_cons_self, hc, rfl⟩
        · exact .inr (.inl ⟨List.mem_cons_of_mem _ hx, by simp [hlt x hx]⟩)
      · rintro (⟨c, hmem, he, rfl⟩ | ⟨hx, he⟩ | ⟨hne, -⟩)
        · rcases List.mem_cons.mp hmem with rfl | hmem
          · exact List.mem_cons_self
          · rw [hlt c hmem] at he
            cases he
        · rcases List.mem_cons.mp hx with rfl | hx
          · exact absurd hc he
          · exact List.mem_cons_of_mem _ hx
        · exact absurd hc (hne b List.mem_cons_self)
    | gt =>
      have hih := ih hrest ha.tail
      simp only [List.mem_cons, hih]
      constructor
      · rintro (rfl | ⟨c, hmem, he, rfl⟩ | ⟨hx, he⟩ | ⟨hne, rfl⟩)
        · exact .inr (.inl ⟨.inl rfl, by simp [hc]⟩)
        · exact .inl ⟨c, .inr hmem, he, rfl⟩
        · exact .inr (.inl ⟨.inr hx, he⟩)
        · refine .inr (.inr ⟨?_, rfl⟩)
          rintro c (rfl | hmem)
          · simp [hc]
          · exact hne c hmem
      · rintro (⟨c, rfl | hmem, he, rfl⟩ | ⟨rfl | hx, he⟩ | ⟨hne, rfl⟩)
        · rw [hc] at he
          cases he
        · exact .inr (.inl ⟨c, hmem, he, rfl⟩)
        · exact .inl rfl
        · exact .inr (.inr (.inl ⟨hx, he⟩))
        · exact .inr (.inr (.inr ⟨fun c hmem => hne c (.inr hmem), rfl⟩))

theorem ascending_upsert {fresh : β} {f : β → β} : Ascending cmp (upsert cmp key fresh f t) := by
  induction t with
  | nil => exact List.pairwise_singleton _ _
  | cons b rest ih =>
    have hrest : ∀ c ∈ rest, K c.1 := fun c hc => ht c (List.mem_cons_of_mem _ hc)
    rw [upsert]
    cases hc : cmp key b.1 with
    | lt =>
      refine List.pairwise_cons.mpr ⟨?_, ha⟩
      intro c hmem
      rcases List.mem_cons.mp hmem with rfl | hmem
      · exact hc
      · exact lt_of_lt_head hK hkey ht ha rfl hc c hmem
    | eq => exact List.pairwise_cons.mpr (List.pairwise_cons.mp ha)
    | gt =>
      refine List.pairwise_cons.mpr ⟨?_, ih hrest ha.tail⟩
      intro c hmem
      have hb := (List.pairwise_cons.mp ha).1
      rcases (mem_upsert hK hkey hrest ha.tail).mp hmem with ⟨d, hd, -, rfl⟩ | ⟨hd, -⟩ | ⟨-, rfl⟩
      · exact hb d hd
      · exact hb c hd
      · exact hK.lt_of_gt hc

theorem mem_revise {f : β → Option β} {x : κ × β} :
    x ∈ revise cmp key f t ↔
      (∃ b ∈ t, cmp key b.1 = .eq ∧ x.1 = b.1 ∧ f b.2 = some x.2) ∨ (x ∈ t ∧ cmp key x.1 ≠ .eq) := by
  induction t with
  | nil => simp [revise]
  | cons b rest ih =>
    have hrest : ∀ c ∈ rest, K c.1 := fun c hc => ht c (List.mem_cons_of_mem _ hc)
    rw [revise]
    cases hc : cmp key b.1 with
    | lt =>
      have hlt := lt_of_lt_head hK hkey ht ha rfl hc
      have hne : ∀ c ∈ b :: rest, cmp key c.1 ≠ .eq := by
        intro c hmem
        rcases List.mem_cons.mp hmem with rfl | hmem
        · simp [hc]
        · simp [hlt c hmem]
      constructor
      · exact fun hx => .inr ⟨hx, hne x hx⟩
      · rintro (⟨c, hmem, he, -⟩ | ⟨hx, -⟩)
        · exact absurd he (hne c hmem)
        · exact hx
    | eq =>
      have hlt := lt_of_eq_head hK hkey ht ha rfl hc
      have hhead : x ∈ ((f b.2).map fun v => (b.1, v)).toList ↔ x.1 = b.1 ∧ f b.2 = some x.2 := by
        rw [Option.mem_toList, Option.map_eq_some_iff]
        constructor
        · rintro ⟨v, hv, rfl⟩
          exact ⟨rfl, hv⟩
        · rintro ⟨h₁, h₂⟩
          exact ⟨x.2, h₂, Prod.ext h₁.symm rfl⟩
      rw [List.mem_append, hhead]
      constructor
      · rintro (hx | hx)
        · exact .inl ⟨b, List.mem_cons_self, hc, hx⟩
        · exact .inr ⟨List.mem_cons_of_mem _ hx, by simp [hlt x hx]⟩
      · rintro (⟨c, hmem, he, hx⟩ | ⟨hx, he⟩)
        · rcases List.mem_cons.mp hmem with rfl | hmem
          · exact .inl hx
          · rw [hlt c hmem] at he
            cases he
        · rcases List.mem_cons.mp hx with rfl | hx
          · exact absurd hc he
          · exact .inr hx
    | gt =>
      simp only [List.mem_cons, ih hrest ha.tail]
      constructor
      · rintro (rfl | ⟨c, hmem, hx⟩ | ⟨hx, he⟩)
        · exact .inr ⟨.inl rfl, by simp [hc]⟩
        · exact .inl ⟨c, .inr hmem, hx⟩
        · exact .inr ⟨.inr hx, he⟩
      · rintro (⟨c, rfl | hmem, he, hx⟩ | ⟨rfl | hx, he⟩)
        · rw [hc] at he
          cases he
        · exact .inr (.inl ⟨c, hmem, he, hx⟩)
        · exact .inl rfl
        · exact .inr (.inr ⟨hx, he⟩)

theorem ascending_revise {f : β → Option β} : Ascending cmp (revise cmp key f t) := by
  induction t with
  | nil => exact List.Pairwise.nil
  | cons b rest ih =>
    have hrest : ∀ c ∈ rest, K c.1 := fun c hc => ht c (List.mem_cons_of_mem _ hc)
    have hb := (List.pairwise_cons.mp ha).1
    rw [revise]
    cases hc : cmp key b.1 with
    | lt => exact ha
    | eq =>
      cases f b.2 with
      | none => exact ha.tail
      | some v => exact List.pairwise_cons.mpr ⟨hb, ha.tail⟩
    | gt =>
      refine List.pairwise_cons.mpr ⟨?_, ih hrest ha.tail⟩
      intro c hmem
      rcases (mem_revise hK hkey hrest ha.tail).mp hmem with ⟨d, hd, -, hx, -⟩ | ⟨hd, -⟩
      · rw [hx]
        exact hb d hd
      · exact hb c hd

end Line

/-! ## Two tables of the same keys -/

/-- Ascending tables whose keys tie with each other's stand side by side. -/
theorem aligned (hK : LineOn cmp K) {s : List (κ × β)} {t : List (κ × γ)} (hs : ∀ b ∈ s, K b.1)
    (ht : ∀ b ∈ t, K b.1) (as : Ascending cmp s) (at_ : Ascending cmp t)
    (hst : ∀ b ∈ s, ∃ c ∈ t, cmp b.1 c.1 = .eq) (hts : ∀ c ∈ t, ∃ b ∈ s, cmp b.1 c.1 = .eq) :
    List.Forall₂ (fun b c => cmp b.1 c.1 = .eq) s t := by
  induction s generalizing t with
  | nil =>
    cases t with
    | nil => exact .nil
    | cons c t =>
      obtain ⟨b, hb, -⟩ := hts c List.mem_cons_self
      cases hb
  | cons b s ih =>
    cases t with
    | nil =>
      obtain ⟨c, hc, -⟩ := hst b List.mem_cons_self
      cases hc
    | cons c t =>
      have hb := hs b List.mem_cons_self
      have hc := ht c List.mem_cons_self
      have hbs := (List.pairwise_cons.mp as).1
      have hct := (List.pairwise_cons.mp at_).1
      have hhead : cmp b.1 c.1 = .eq := by
        obtain ⟨c', hc', he⟩ := hst b List.mem_cons_self
        rcases List.mem_cons.mp hc' with rfl | hc'
        · exact he
        · -- Else the other's first key lies below every key of this table.
          obtain ⟨b', hb', he'⟩ := hts c List.mem_cons_self
          have hKc' := ht c' (List.mem_cons_of_mem _ hc')
          have hlt : cmp c.1 b.1 = .lt := by
            rw [hK.congr_right hc hb hKc' he]
            exact hct c' hc'
          rcases List.mem_cons.mp hb' with rfl | hb'
          · exact he'
          · have hKb' := hs b' (List.mem_cons_of_mem _ hb')
            have hlt' := hK.lt_trans hc hb hKb' hlt (hbs b' hb')
            rw [hK.symm he'] at hlt'
            cases hlt'
      refine .cons hhead (ih (fun x hx => hs x (List.mem_cons_of_mem _ hx))
        (fun x hx => ht x (List.mem_cons_of_mem _ hx)) as.tail at_.tail ?_ ?_)
      · intro x hx
        obtain ⟨y, hy, he⟩ := hst x (List.mem_cons_of_mem _ hx)
        rcases List.mem_cons.mp hy with rfl | hy
        · have hKx := hs x (List.mem_cons_of_mem _ hx)
          have hlt := hbs x hx
          rw [hK.congr_right hb hKx hc he, hhead] at hlt
          cases hlt
        · exact ⟨y, hy, he⟩
      · intro y hy
        obtain ⟨x, hx, he⟩ := hts y (List.mem_cons_of_mem _ hy)
        rcases List.mem_cons.mp hx with rfl | hx
        · have hKy := ht y (List.mem_cons_of_mem _ hy)
          have hlt := hct y hy
          rw [← hK.congr_left hb hc hKy hhead, he] at hlt
          cases hlt
        · exact ⟨x, hx, he⟩

/-! ## What the buckets hold -/

/-- An ascending table of the elements of a list under their keys. -/
structure Divides (cmp : κ → κ → Ordering) (keyOf : α → κ) (l : List α) (t : List (κ × List α)) :
    Prop where
  ascending : Ascending cmp t
  keyed : ∀ b ∈ t, ∃ a ∈ l, b.1 = keyOf a
  members : ∀ b ∈ t, b.2 = l.filter fun a => cmp (keyOf a) b.1 = .eq
  covered : ∀ a ∈ l, ∃ b ∈ t, cmp (keyOf a) b.1 = .eq

theorem divides_buckets (hK : LineOn cmp K) {keyOf : α → κ} {l : List α}
    (hl : ∀ a ∈ l, K (keyOf a)) : Divides cmp keyOf l (buckets cmp keyOf l) := by
  induction l using List.reverseRecOn with
  | nil =>
    exact ⟨List.Pairwise.nil, nofun, nofun, nofun⟩
  | append_singleton l a ih =>
    have hd := ih fun x hx => hl x (List.mem_append_left _ hx)
    have ha : K (keyOf a) := hl a (List.mem_append_right _ List.mem_cons_self)
    have ht : ∀ b ∈ buckets cmp keyOf l, K b.1 := by
      intro b hb
      obtain ⟨x, hx, he⟩ := hd.keyed b hb
      rw [he]
      exact hl x (List.mem_append_left _ hx)
    have hmem := fun x => @mem_upsert _ _ _ _ hK _ _ ha ht hd.ascending [] (· ++ [a]) x
    rw [buckets_snoc]
    constructor
    · exact ascending_upsert hK ha ht hd.ascending
    · intro x hx
      rcases (hmem x).mp hx with ⟨b, hb, -, rfl⟩ | ⟨hx, -⟩ | ⟨-, rfl⟩
      · obtain ⟨y, hy, he⟩ := hd.keyed b hb
        exact ⟨y, List.mem_append_left _ hy, he⟩
      · obtain ⟨y, hy, he⟩ := hd.keyed x hx
        exact ⟨y, List.mem_append_left _ hy, he⟩
      · exact ⟨a, List.mem_append_right _ List.mem_cons_self, rfl⟩
    · intro x hx
      rw [List.filter_append, List.filter_singleton]
      rcases (hmem x).mp hx with ⟨b, hb, he, rfl⟩ | ⟨hx, hne⟩ | ⟨hne, rfl⟩
      · simp [hd.members b hb, he]
      · simp [← hd.members x hx, hne]
      · have hnone : l.filter (fun y => cmp (keyOf y) (keyOf a) = .eq) = [] := by
          apply List.filter_eq_nil_iff.mpr
          intro y hy
          obtain ⟨b, hb, he⟩ := hd.covered y hy
          have hy' : K (keyOf y) := hl y (List.mem_append_left _ hy)
          rw [decide_eq_true_eq, hK.congr_left hy' (ht b hb) ha he]
          exact fun hba => hne b hb (hK.symm hba)
        simp [hnone, hK.self]
    · intro x hx
      rcases List.mem_append.mp hx with hx | hx
      · obtain ⟨b, hb, he⟩ := hd.covered x hx
        by_cases hab : cmp (keyOf a) b.1 = .eq
        · exact ⟨(b.1, b.2 ++ [a]), (hmem _).mpr (.inl ⟨b, hb, hab, rfl⟩), he⟩
        · exact ⟨b, (hmem _).mpr (.inr (.inl ⟨hb, hab⟩)), he⟩
      · rw [List.mem_singleton.mp hx]
        by_cases hex : ∃ b ∈ buckets cmp keyOf l, cmp (keyOf a) b.1 = .eq
        · obtain ⟨b, hb, hab⟩ := hex
          exact ⟨(b.1, b.2 ++ [a]), (hmem _).mpr (.inl ⟨b, hb, hab, rfl⟩), hab⟩
        · have hne : ∀ b ∈ buckets cmp keyOf l, cmp (keyOf a) b.1 ≠ .eq :=
            fun b hb he => hex ⟨b, hb, he⟩
          exact ⟨(keyOf a, [] ++ [a]), (hmem _).mpr (.inr (.inr ⟨hne, rfl⟩)), hK.self _⟩

/-- The tables of two lists of the same elements stand side by side, and so do the
elements in them. -/
theorem Divides.perm (hK : LineOn cmp K) {keyOf : α → κ} {l m : List α} {s t : List (κ × List α)}
    (hl : ∀ a ∈ l, K (keyOf a)) (hp : l.Perm m) (hs : Divides cmp keyOf l s)
    (ht : Divides cmp keyOf m t) :
    List.Forall₂ (fun b c => cmp b.1 c.1 = .eq ∧ b.2.Perm c.2) s t := by
  have hm : ∀ a ∈ m, K (keyOf a) := fun a ha => hl a (hp.mem_iff.mpr ha)
  have hks : ∀ b ∈ s, K b.1 := by
    intro b hb
    obtain ⟨a, ha, he⟩ := hs.keyed b hb
    rw [he]
    exact hl a ha
  have hkt : ∀ b ∈ t, K b.1 := by
    intro b hb
    obtain ⟨a, ha, he⟩ := ht.keyed b hb
    rw [he]
    exact hm a ha
  have hkeys : List.Forall₂ (fun b c : κ × List α => cmp b.1 c.1 = .eq) s t := by
    apply aligned hK hks hkt hs.ascending ht.ascending
    · intro b hb
      obtain ⟨a, ha, he⟩ := hs.keyed b hb
      rw [he]
      exact ht.covered a (hp.mem_iff.mp ha)
    · intro c hc
      obtain ⟨a, ha, he⟩ := ht.keyed c hc
      obtain ⟨b, hb, hab⟩ := hs.covered a (hp.mem_iff.mpr ha)
      rw [he]
      exact ⟨b, hb, hK.symm hab⟩
  refine (List.forall₂_iff_zip.mpr ⟨hkeys.length_eq, fun {b c} hbc => ?_⟩)
  have hb := (List.of_mem_zip hbc).1
  have hc := (List.of_mem_zip hbc).2
  have hkey := (List.forall₂_iff_zip.mp hkeys).2 hbc
  refine ⟨hkey, ?_⟩
  rw [hs.members b hb, ht.members c hc]
  have hsame : l.filter (fun a => cmp (keyOf a) b.1 = .eq) =
      l.filter fun a => cmp (keyOf a) c.1 = .eq := by
    apply List.filter_congr
    intro a ha
    rw [hK.congr_right (hl a ha) (hks b hb) (hkt c hc) hkey]
  rw [hsame]
  exact hp.filter _

end Adabt.Library
