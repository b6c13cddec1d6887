import Mathlib.Data.List.Basic
import Mathlib.Logic.Function.Basic
import Mathlib.Logic.Relation

/-! # Versioned stores

Keys with chains of stamped versions, each naming a location of a memory or
marking a removal. A reader at stamp `t` sees, for each key, the newest version
stamped at or before `t`. Writers append versions at fresh locations, and a trim
forgets what lies below a horizon and frees its locations. In a sound store every
location has one owner, and then no step changes what an open reader sees. -/

set_option autoImplicit false

namespace Adabt.Library

variable {κ L ν : Type}

abbrev Chain (L : Type) := List (ℕ × Option L)

namespace Chain

def newest (vs : Chain L) : Option L := vs.getLast?.bind (·.2)

def visible (t : ℕ) (vs : Chain L) : Option L := (vs.reverse.find? (·.1 ≤ t)).bind (·.2)

@[simp] theorem newest_nil : newest ([] : Chain L) = none := rfl

@[simp] theorem visible_nil (t : ℕ) : visible t ([] : Chain L) = none := rfl

@[simp] theorem newest_concat (vs : Chain L) (v : ℕ × Option L) : newest (vs ++ [v]) = v.2 := by
  simp [newest]

theorem visible_concat (vs : Chain L) {t : ℕ} {v : ℕ × Option L} (h : t < v.1) :
    visible t (vs ++ [v]) = visible t vs := by
  simp [visible, List.reverse_append, Nat.not_le.mpr h]

/-- A reader at or after every stamp of the chain sees the newest version. -/
theorem visible_eq_newest {vs : Chain L} {t : ℕ} (h : ∀ v ∈ vs, v.1 ≤ t) :
    visible t vs = newest vs := by
  unfold visible newest
  rw [← List.head?_reverse]
  cases hr : vs.reverse with
  | nil => rfl
  | cons v rest =>
    have hv : v.1 ≤ t := h v (List.mem_reverse.mp (hr ▸ List.mem_cons_self))
    simp [hv]

theorem mem_of_newest {vs : Chain L} {loc : L} (h : newest vs = some loc) :
    ∃ t, (t, some loc) ∈ vs := by
  unfold newest at h
  obtain ⟨v, hv, hloc⟩ := Option.bind_eq_some_iff.mp h
  exact ⟨v.1, hloc ▸ List.mem_of_getLast? hv⟩

theorem mem_of_visible {vs : Chain L} {t : ℕ} {loc : L} (h : visible t vs = some loc) :
    ∃ u ≤ t, (u, some loc) ∈ vs := by
  unfold visible at h
  obtain ⟨v, hv, hloc⟩ := Option.bind_eq_some_iff.mp h
  have hle : v.1 ≤ t := by simpa using List.find?_some hv
  exact ⟨v.1, hle, hloc ▸ List.mem_reverse.mp (List.mem_of_find?_eq_some hv)⟩

/-- What goes and what is kept when everything older than the newest version at
or before the horizon is dropped. -/
structure Trim (horizon : ℕ) (vs gone kept : Chain L) : Prop where
  split : vs = gone ++ kept
  covered : gone ≠ [] → ∃ v rest, kept = v :: rest ∧ v.1 ≤ horizon
  recent : ∀ v ∈ kept.tail, horizon < v.1

namespace Trim

variable {horizon : ℕ} {vs gone kept : Chain L}

theorem newest (h : Trim horizon vs gone kept) : Chain.newest kept = Chain.newest vs := by
  rw [h.split]
  by_cases hg : gone = []
  · rw [hg, List.nil_append]
  · obtain ⟨v, rest, hk, -⟩ := h.covered hg
    have hlast : (v :: rest).getLast? = some ((v :: rest).getLast (List.cons_ne_nil _ _)) :=
      List.getLast?_eq_some_getLast _
    simp only [Chain.newest, hk, List.getLast?_append, hlast, Option.some_or]

/-- A reader at or after the horizon does not notice. -/
theorem visible (h : Trim horizon vs gone kept) {t : ℕ} (ht : horizon ≤ t) :
    Chain.visible t kept = Chain.visible t vs := by
  rw [h.split]
  by_cases hg : gone = []
  · rw [hg, List.nil_append]
  · obtain ⟨v, rest, hk, hv⟩ := h.covered hg
    simp only [Chain.visible, hk, List.reverse_append, List.reverse_cons, List.append_assoc,
      List.find?_append, List.find?_singleton, Nat.le_trans hv ht, decide_true]
    cases rest.reverse.find? (·.1 ≤ t) <;> rfl

theorem mem_kept (h : Trim horizon vs gone kept) {v : ℕ × Option L} (hv : v ∈ kept) : v ∈ vs :=
  h.split ▸ List.mem_append_right _ hv

theorem mem_gone (h : Trim horizon vs gone kept) {v : ℕ × Option L} (hv : v ∈ gone) : v ∈ vs :=
  h.split ▸ List.mem_append_left _ hv

end Trim

/-- A chain that is nothing but a removal is dropped. -/
def settle : Chain L → Chain L
  | [(_, none)] => []
  | vs => vs

theorem settle_eq (vs : Chain L) : settle vs = vs ∨ ∃ t, vs = [(t, none)] ∧ settle vs = [] := by
  unfold settle
  split
  · next t => exact .inr ⟨t, rfl, rfl⟩
  · exact .inl rfl

theorem mem_settle {vs : Chain L} {v : ℕ × Option L} (h : v ∈ settle vs) : v ∈ vs := by
  rcases settle_eq vs with he | ⟨t, -, he⟩
  · exact he ▸ h
  · rw [he] at h
    cases h

theorem newest_settle (vs : Chain L) : newest (settle vs) = newest vs := by
  rcases settle_eq vs with he | ⟨t, rfl, he⟩
  · rw [he]
  · rfl

theorem visible_settle (t : ℕ) (vs : Chain L) : visible t (settle vs) = visible t vs := by
  rcases settle_eq vs with he | ⟨u, rfl, he⟩
  · rw [he]
  · rw [he]
    by_cases hu : u ≤ t <;> simp [visible, hu]

end Chain

structure VersionStore (κ L ν : Type) where
  chain : κ → Chain L
  mem : L → Option ν
  next : ℕ
  opened : List ℕ

namespace VersionStore

def Owns (s : VersionStore κ L ν) (loc : L) (k : κ) (t : ℕ) : Prop := (t, some loc) ∈ s.chain k

structure Sound (s : VersionStore κ L ν) : Prop where
  live : ∀ {loc k t}, s.Owns loc k t → s.mem loc ≠ none
  unique : ∀ {loc k k' t t'}, s.Owns loc k t → s.Owns loc k' t' → k = k' ∧ t = t'
  sorted : ∀ k, (s.chain k).Pairwise (·.1 < ·.1)
  stamps : ∀ {k v}, v ∈ s.chain k → v.1 < s.next
  opened : ∀ t ∈ s.opened, t < s.next

/-- What a reader at stamp `t` finds under a key. -/
def see (s : VersionStore κ L ν) (t : ℕ) (k : κ) : Option ν :=
  (Chain.visible t (s.chain k)).bind s.mem

/-- What is stored under a key now. -/
def now (s : VersionStore κ L ν) (k : κ) : Option ν := (Chain.newest (s.chain k)).bind s.mem

/-- A snapshot opened now sees what is stored now. -/
theorem Sound.see_current {s : VersionStore κ L ν} (hs : s.Sound) (k : κ) :
    s.see (s.next - 1) k = s.now k := by
  unfold see now
  rw [Chain.visible_eq_newest fun v hv => Nat.le_sub_one_of_lt (hs.stamps hv)]

theorem Sound.openSnapshot {s : VersionStore κ L ν} (hs : s.Sound) (h : 0 < s.next) :
    Sound { s with opened := s.opened ++ [s.next - 1] } := by
  refine ⟨hs.live, hs.unique, hs.sorted, hs.stamps, fun t ht => ?_⟩
  rcases List.mem_append.mp ht with ht | ht
  · exact hs.opened t ht
  · rw [List.mem_singleton.mp ht]
    exact Nat.sub_lt h Nat.one_pos

theorem Sound.closeSnapshot {s : VersionStore κ L ν} (hs : s.Sound) {opened : List ℕ}
    (h : ∀ t ∈ opened, t ∈ s.opened) : Sound { s with opened := opened } :=
  ⟨hs.live, hs.unique, hs.sorted, hs.stamps, fun t ht => hs.opened t (h t ht)⟩

/-- One store is the other with everything below the horizon dropped and freed. -/
structure Trimmed (horizon : ℕ) (s s' : VersionStore κ L ν) : Prop where
  next : s'.next = s.next
  opened : s'.opened = s.opened
  chains : ∃ gone kept : κ → Chain L, (∀ k, (s.chain k).Trim horizon (gone k) (kept k)) ∧
    (∀ k, s'.chain k = (kept k).settle) ∧
    (∀ loc, (∃ k t, (t, some loc) ∈ gone k) → s'.mem loc = none) ∧
    ∀ loc, (¬∃ k t, (t, some loc) ∈ gone k) → s'.mem loc = s.mem loc

/-- A location freed by a trim is named by no version that is kept. -/
theorem Sound.gone_not_kept {s : VersionStore κ L ν} (hs : s.Sound) {horizon : ℕ}
    {gone kept : κ → Chain L} (ht : ∀ k, (s.chain k).Trim horizon (gone k) (kept k)) {loc : L}
    {k k' : κ} {t t' : ℕ} (hg : (t, some loc) ∈ gone k) : (t', some loc) ∉ kept k' := by
  intro hk
  obtain ⟨rfl, rfl⟩ := hs.unique ((ht k).mem_gone hg) ((ht k').mem_kept hk)
  have hsorted := hs.sorted k
  rw [(ht k).split] at hsorted
  exact absurd ((List.pairwise_append.mp hsorted).2.2 _ hg _ hk) (Nat.lt_irrefl t)

theorem Sound.trim {s s' : VersionStore κ L ν} (hs : s.Sound) {horizon : ℕ}
    (h : Trimmed horizon s s') : s'.Sound := by
  obtain ⟨hnext, hopened, gone, kept, ht, hchain, hfree, hkeep⟩ := h
  have hsub : ∀ {k v}, v ∈ s'.chain k → v ∈ kept k := fun {k v} hv =>
    Chain.mem_settle (hchain k ▸ hv)
  refine ⟨fun {loc k t} ho => ?_, fun {loc k k' t t'} ho ho' => ?_, fun k => ?_,
    fun {k v} hv => ?_, fun t hto => ?_⟩
  · have hk : (t, some loc) ∈ kept k := hsub ho
    rw [hkeep loc fun ⟨_, _, hg⟩ => hs.gone_not_kept ht hg hk]
    exact hs.live ((ht k).mem_kept hk)
  · exact hs.unique ((ht k).mem_kept (hsub ho)) ((ht k').mem_kept (hsub ho'))
  · rw [hchain k]
    have hsorted := hs.sorted k
    rw [(ht k).split] at hsorted
    rcases Chain.settle_eq (kept k) with he | ⟨t, -, he⟩
    · rw [he]
      exact (List.pairwise_append.mp hsorted).2.1
    · rw [he]
      exact List.Pairwise.nil
  · rw [hnext]
    exact hs.stamps ((ht k).mem_kept (hsub hv))
  · rw [hnext]
    exact hs.opened t (hopened ▸ hto)

section Rekey

variable {s s' : VersionStore κ L ν} {source : κ → Option κ}

/-- The chains stand under other keys, each at most once, and some may have gone. -/
structure Rekeyed (source : κ → Option κ) (s s' : VersionStore κ L ν) : Prop where
  once : ∀ {k k' j}, source k = some j → source k' = some j → k = k'
  chain : ∀ k, s'.chain k = ((source k).map s.chain).getD []
  mem : ∀ {k j loc t}, source k = some j → s.Owns loc j t → s'.mem loc = s.mem loc
  next : s'.next = s.next
  opened : s'.opened = s.opened

theorem Rekeyed.owns (h : Rekeyed source s s') {k : κ} {v : ℕ × Option L} (hv : v ∈ s'.chain k) :
    ∃ j, source k = some j ∧ v ∈ s.chain j := by
  rw [h.chain] at hv
  cases hk : source k with
  | none => simp [hk] at hv
  | some j => exact ⟨j, rfl, by simpa [hk] using hv⟩

theorem Rekeyed.sound (h : Rekeyed source s s') (hs : s.Sound) : s'.Sound where
  live {loc k t} ho := by
    obtain ⟨j, hk, hj⟩ := h.owns ho
    rw [h.mem hk hj]
    exact hs.live hj
  unique {loc k k' t t'} ho ho' := by
    obtain ⟨j, hk, hj⟩ := h.owns ho
    obtain ⟨j', hk', hj'⟩ := h.owns ho'
    obtain ⟨rfl, rfl⟩ := hs.unique hj hj'
    exact ⟨h.once hk hk', rfl⟩
  sorted k := by
    rw [h.chain]
    cases source k with
    | none => exact List.Pairwise.nil
    | some j => exact hs.sorted j
  stamps {k v} hv := by
    obtain ⟨j, -, hj⟩ := h.owns hv
    rw [h.next]
    exact hs.stamps hj
  opened t ht := by
    rw [h.next]
    exact hs.opened t (h.opened ▸ ht)

theorem Rekeyed.now (h : Rekeyed source s s') (k : κ) : s'.now k = (source k).bind s.now := by
  unfold VersionStore.now
  rw [h.chain]
  cases hk : source k with
  | none => rfl
  | some j =>
    rw [Option.map_some, Option.getD_some, Option.bind_some]
    cases hn : Chain.newest (s.chain j) with
    | none => rfl
    | some loc =>
      obtain ⟨t, ht⟩ := Chain.mem_of_newest hn
      exact h.mem hk ht

end Rekey

section Append

variable [DecidableEq κ]

def append (s : VersionStore κ L ν) (k : κ) (loc : Option L) : VersionStore κ L ν :=
  { s with
    chain := Function.update s.chain k (s.chain k ++ [(s.next, loc)])
    next := s.next + 1 }

theorem owns_append {s : VersionStore κ L ν} {k : κ} {loc : Option L} {l : L} {k' : κ} {t : ℕ} :
    (s.append k loc).Owns l k' t ↔ s.Owns l k' t ∨ (k' = k ∧ t = s.next ∧ loc = some l) := by
  unfold Owns append
  by_cases h : k' = k
  · subst h
    simp [eq_comm]
  · simp [h]

theorem mem_append_chain {s : VersionStore κ L ν} {k k' : κ} {loc : Option L} {v : ℕ × Option L}
    (h : v ∈ (s.append k loc).chain k') : v ∈ s.chain k' ∨ v = (s.next, loc) := by
  unfold append at h
  by_cases hk : k' = k
  · subst hk
    simpa using h
  · simp only [Function.update_of_ne hk] at h
    exact .inl h

theorem Sound.append_sorted {s : VersionStore κ L ν} (hs : s.Sound) (k : κ) (loc : Option L)
    (k' : κ) : ((s.append k loc).chain k').Pairwise (·.1 < ·.1) := by
  unfold append
  by_cases hk : k' = k
  · subst hk
    simp only [Function.update_self]
    refine List.pairwise_append.mpr ⟨hs.sorted k', List.pairwise_singleton _ _, ?_⟩
    intro v hv w hw
    rw [List.mem_singleton.mp hw]
    exact hs.stamps hv
  · simp only [Function.update_of_ne hk]
    exact hs.sorted k'

theorem Sound.append {s : VersionStore κ L ν} (hs : s.Sound) (k : κ) : (s.append k none).Sound where
  live ho := by
    rw [owns_append] at ho
    rcases ho with ho | ⟨-, -, he⟩
    · exact hs.live ho
    · cases he
  unique ho ho' := by
    rw [owns_append] at ho ho'
    rcases ho with ho | ⟨-, -, he⟩
    · rcases ho' with ho' | ⟨-, -, he⟩
      · exact hs.unique ho ho'
      · cases he
    · cases he
  sorted := hs.append_sorted k none
  stamps hv := by
    rcases mem_append_chain hv with hv | rfl
    · exact Nat.lt_succ_of_lt (hs.stamps hv)
    · exact Nat.lt_succ_self _
  opened t ht := Nat.lt_succ_of_lt (hs.opened t ht)

end Append

variable [DecidableEq κ] [DecidableEq L]

def put (s : VersionStore κ L ν) (k : κ) (loc : L) (v : ν) : VersionStore κ L ν :=
  { s.append k (some loc) with mem := Function.update s.mem loc (some v) }

/-- The steps of writers. -/
inductive WriteStep : VersionStore κ L ν → VersionStore κ L ν → Prop where
  | put (s : VersionStore κ L ν) (k : κ) (loc : L) (v : ν) (h : s.mem loc = none) :
      WriteStep s (s.put k loc v)
  | remove (s : VersionStore κ L ν) (k : κ) (h : (s.chain k).newest ≠ none) :
      WriteStep s (s.append k none)
  | tick (s : VersionStore κ L ν) : WriteStep s { s with next := s.next + 1 }
  | trim (s s' : VersionStore κ L ν) (horizon : ℕ) (hopen : ∀ t ∈ s.opened, horizon ≤ t)
      (h : Trimmed horizon s s') : WriteStep s s'
  /-- Memory that no version names may change in any way. -/
  | scratch (s : VersionStore κ L ν) (mem : L → Option ν)
      (h : ∀ loc k t, s.Owns loc k t → mem loc = s.mem loc) : WriteStep s { s with mem := mem }

/-- Any number of writes. -/
abbrev Writes : VersionStore κ L ν → VersionStore κ L ν → Prop := Relation.ReflTransGen WriteStep

theorem Sound.put {s : VersionStore κ L ν} (hs : s.Sound) (k : κ) {loc : L} (v : ν)
    (h : s.mem loc = none) : (s.put k loc v).Sound where
  live {l k' t} ho := by
    change (s.append k (some loc)).Owns l k' t at ho
    rw [owns_append] at ho
    by_cases hl : l = loc
    · simp [VersionStore.put, hl]
    · rcases ho with ho | ⟨-, -, he⟩
      · simpa [VersionStore.put, hl] using hs.live ho
      · exact absurd (Option.some.inj he).symm hl
  unique {l k' k'' t t'} ho ho' := by
    change (s.append k (some loc)).Owns l k' t at ho
    change (s.append k (some loc)).Owns l k'' t' at ho'
    rw [owns_append] at ho ho'
    rcases ho with ho | ⟨rfl, rfl, he⟩
    · rcases ho' with ho' | ⟨-, -, he⟩
      · exact hs.unique ho ho'
      · cases he
        exact absurd h (hs.live ho)
    · rcases ho' with ho' | ⟨rfl, rfl, -⟩
      · cases he
        exact absurd h (hs.live ho')
      · exact ⟨rfl, rfl⟩
  sorted := hs.append_sorted k (some loc)
  stamps hv := by
    rcases mem_append_chain hv with hv | rfl
    · exact Nat.lt_succ_of_lt (hs.stamps hv)
    · exact Nat.lt_succ_self _
  opened t ht := Nat.lt_succ_of_lt (hs.opened t ht)

/-- Every write keeps a sound store sound. -/
theorem WriteStep.sound {s s' : VersionStore κ L ν} (h : WriteStep s s') (hs : s.Sound) :
    s'.Sound := by
  cases h with
  | put k loc v h => exact hs.put k v h
  | remove k => exact hs.append k
  | tick => exact ⟨hs.live, hs.unique, hs.sorted, fun hv => Nat.lt_succ_of_lt (hs.stamps hv),
      fun t ht => Nat.lt_succ_of_lt (hs.opened t ht)⟩
  | trim _ horizon hopen h => exact hs.trim h
  | scratch mem h =>
    refine ⟨fun {loc k t} ho => ?_, hs.unique, hs.sorted, hs.stamps, hs.opened⟩
    change mem loc ≠ none
    rw [h loc k t ho]
    exact hs.live ho

theorem WriteStep.opened_eq {s s' : VersionStore κ L ν} (h : WriteStep s s') :
    s'.opened = s.opened := by
  cases h with
  | put => rfl
  | remove => rfl
  | tick => rfl
  | trim _ _ _ h => exact h.opened
  | scratch => rfl

theorem WriteStep.next_le {s s' : VersionStore κ L ν} (h : WriteStep s s') : s.next ≤ s'.next := by
  cases h with
  | put => exact Nat.le_succ _
  | remove => exact Nat.le_succ _
  | tick => exact Nat.le_succ _
  | trim _ _ _ h => exact Nat.le_of_eq h.next.symm
  | scratch => exact Nat.le_refl _

/-- A reader with an open snapshot sees the same after every write. -/
theorem WriteStep.see_eq {s s' : VersionStore κ L ν} (h : WriteStep s s') (hs : s.Sound) {t : ℕ}
    (ht : t ∈ s.opened) (k : κ) : s'.see t k = s.see t k := by
  have htn := hs.opened t ht
  have hvis : ∀ k' loc, Chain.visible t ((s.append k' loc).chain k) = Chain.visible t (s.chain k) := by
    intro k' loc
    unfold append
    by_cases hk : k = k'
    · subst hk
      simp only [Function.update_self]
      exact Chain.visible_concat _ htn
    · simp only [Function.update_of_ne hk]
  cases h with
  | put k' loc v h =>
    unfold see
    change (Chain.visible t ((s.append k' (some loc)).chain k)).bind _ = _
    rw [hvis]
    refine Option.bind_congr fun l hl => ?_
    obtain ⟨u, -, hu⟩ := Chain.mem_of_visible hl
    have hne : l ≠ loc := fun he => hs.live hu (he ▸ h)
    exact Function.update_of_ne hne _ _
  | remove k' =>
    unfold see
    rw [hvis]
    rfl
  | tick => rfl
  | trim _ horizon hopen h =>
    obtain ⟨-, -, gone, kept, htrim, hchain, -, hkeep⟩ := h
    unfold see
    rw [hchain, Chain.visible_settle]
    have hv := (htrim k).visible (hopen t ht)
    rw [← hv]
    refine Option.bind_congr fun l hl => ?_
    obtain ⟨u, -, hu⟩ := Chain.mem_of_visible hl
    exact hkeep l fun ⟨_, _, hg⟩ => hs.gone_not_kept htrim hg hu
  | scratch mem h =>
    refine Option.bind_congr fun l hl => ?_
    obtain ⟨u, -, hu⟩ := Chain.mem_of_visible hl
    exact h l k u hu

theorem Writes.sound {s s' : VersionStore κ L ν} (h : Writes s s') (hs : s.Sound) : s'.Sound := by
  induction h with
  | refl => exact hs
  | tail _ h ih => exact h.sound ih

theorem Writes.opened_eq {s s' : VersionStore κ L ν} (h : Writes s s') : s'.opened = s.opened := by
  induction h with
  | refl => rfl
  | tail _ h ih => exact h.opened_eq.trans ih

theorem Writes.next_le {s s' : VersionStore κ L ν} (h : Writes s s') : s.next ≤ s'.next := by
  induction h with
  | refl => exact Nat.le_refl _
  | tail _ h ih => exact Nat.le_trans ih h.next_le

/-! ## What is stored now -/

omit [DecidableEq L] in
theorem now_remove (s : VersionStore κ L ν) (k : κ) :
    (s.append k none).now = Function.update s.now k none := by
  funext k'
  unfold now append
  by_cases hk : k' = k
  · subst hk
    simp
  · simp only [Function.update_of_ne hk]

theorem Sound.now_put {s : VersionStore κ L ν} (hs : s.Sound) (k : κ) {loc : L} (v : ν)
    (h : s.mem loc = none) : (s.put k loc v).now = Function.update s.now k (some v) := by
  funext k'
  unfold now VersionStore.put VersionStore.append
  by_cases hk : k' = k
  · subst hk
    simp
  · simp only [Function.update_of_ne hk]
    refine Option.bind_congr fun l hl => ?_
    obtain ⟨t, ht⟩ := Chain.mem_of_newest hl
    have hne : l ≠ loc := by
      rintro rfl
      exact hs.live ht h
    exact Function.update_of_ne hne _ _

omit [DecidableEq κ] [DecidableEq L] in
/-- A trim forgets nothing that is stored now. -/
theorem Trimmed.now_eq {s s' : VersionStore κ L ν} {horizon : ℕ} (h : Trimmed horizon s s')
    (hs : s.Sound) : s'.now = s.now := by
  obtain ⟨-, -, gone, kept, ht, hchain, -, hkeep⟩ := h
  funext k
  unfold now
  rw [hchain k, Chain.newest_settle, ← (ht k).newest]
  refine Option.bind_congr fun l hl => ?_
  obtain ⟨t, hmem⟩ := Chain.mem_of_newest hl
  exact hkeep l fun ⟨_, _, hg⟩ => hs.gone_not_kept ht hg hmem

/-- Snapshots are stable: no sequence of writes changes what an open one sees. -/
theorem Writes.see_eq {s s' : VersionStore κ L ν} (h : Writes s s') (hs : s.Sound) {t : ℕ}
    (ht : t ∈ s.opened) (k : κ) : s'.see t k = s.see t k := by
  induction h with
  | refl => rfl
  | tail h1 h2 ih =>
    rw [h2.see_eq (Writes.sound h1 hs) (Writes.opened_eq h1 ▸ ht) k, ih]

/-! ## What was written since -/

/-- A version newer than `t` stands under the key. -/
def Since (s : VersionStore κ L ν) (t : ℕ) (k : κ) : Prop := ∃ v ∈ s.chain k, t < v.1

/-- No key is left with nothing but a removal newer than `t`. -/
def Anchored (s : VersionStore κ L ν) (t : ℕ) : Prop := ∀ k u, s.chain k = [(u, none)] → u ≤ t

omit [DecidableEq κ] [DecidableEq L] in
theorem Sound.anchored {s : VersionStore κ L ν} (hs : s.Sound) : s.Anchored (s.next - 1) := by
  intro k u hk
  have hu : (u, none) ∈ s.chain k := hk ▸ List.mem_singleton_self _
  exact Nat.le_sub_one_of_lt (hs.stamps hu)

omit [DecidableEq κ] [DecidableEq L] in
/-- Under a key that was not written since `t` a reader at `t` finds what is stored. -/
theorem see_eq_now {s : VersionStore κ L ν} {t : ℕ} {k : κ} (h : ¬ s.Since t k) :
    s.see t k = s.now k := by
  unfold see now
  rw [Chain.visible_eq_newest fun v hv => Nat.not_lt.mp fun hlt => h ⟨v, hv, hlt⟩]

omit [DecidableEq L] in
theorem anchored_append {s : VersionStore κ L ν} {t : ℕ} (ha : s.Anchored t) {k : κ}
    {loc : Option L} (h : loc ≠ none ∨ s.chain k ≠ []) : (s.append k loc).Anchored t := by
  intro k' u hk'
  unfold append at hk'
  dsimp only at hk'
  by_cases hk : k' = k
  · subst hk
    rw [Function.update_self] at hk'
    rcases h with h | h
    · have hlast := congrArg List.getLast? hk'
      rw [List.getLast?_concat] at hlast
      cases hlast
      exact absurd rfl h
    · have hlen := congrArg List.length hk'
      rw [List.length_append, List.length_singleton, List.length_singleton] at hlen
      exact absurd (List.eq_nil_of_length_eq_zero (Nat.succ.inj hlen)) h
  · rw [Function.update_of_ne hk] at hk'
    exact ha k' u hk'

omit [DecidableEq L] in
theorem Since.append {s : VersionStore κ L ν} {t : ℕ} {k k' : κ} (h : s.Since t k)
    (loc : Option L) : (s.append k' loc).Since t k := by
  obtain ⟨v, hv, ht⟩ := h
  refine ⟨v, ?_, ht⟩
  change v ∈ Function.update s.chain k' _ k
  by_cases hk : k = k'
  · subst hk
    rw [Function.update_self]
    exact List.mem_append_left _ hv
  · rwa [Function.update_of_ne hk]

omit [DecidableEq κ] [DecidableEq L] in
/-- A trim keeps every version newer than its horizon, except a removal that stands alone. -/
theorem Trimmed.since {s s' : VersionStore κ L ν} {horizon t : ℕ} (h : Trimmed horizon s s')
    (hs : s.Sound) (ht : horizon ≤ t) (ha : s.Anchored t) :
    s'.Anchored t ∧ ∀ k, s.Since t k → s'.Since t k := by
  obtain ⟨-, -, gone, kept, htrim, hchain, -, -⟩ := h
  constructor
  · intro k u hk
    rw [hchain] at hk
    rcases Chain.settle_eq (kept k) with he | ⟨_, he, hnil⟩
    · rw [he] at hk
      rw [hk] at he
      cases he
    · rw [hnil] at hk
      cases hk
  · rintro k ⟨v, hv, hvt⟩
    have hkept : v ∈ kept k := by
      rw [(htrim k).split] at hv
      rcases List.mem_append.mp hv with hg | hk
      · obtain ⟨w, rest, hk, hw⟩ := (htrim k).covered (List.ne_nil_of_mem hg)
        have hsorted := hs.sorted k
        rw [(htrim k).split, hk] at hsorted
        have hlt := (List.pairwise_append.mp hsorted).2.2 v hg w List.mem_cons_self
        omega
      · exact hk
    refine ⟨v, ?_, hvt⟩
    rw [hchain]
    rcases Chain.settle_eq (kept k) with he | ⟨u, he, hnil⟩
    · rwa [he]
    · -- Nothing is dropped before a removal newer than the horizon.
      rw [he, List.mem_singleton] at hkept
      subst hkept
      have hgone : gone k = [] := by
        by_contra hne
        obtain ⟨w, rest, hk, hw⟩ := (htrim k).covered hne
        rw [he] at hk
        cases hk
        exact absurd (Nat.le_trans hw ht) (Nat.not_le.mpr hvt)
      have hlone : s.chain k = [(u, none)] := by rw [(htrim k).split, hgone, he]; rfl
      exact absurd (ha k u hlone) (Nat.not_le.mpr hvt)

theorem WriteStep.since {s s' : VersionStore κ L ν} (h : WriteStep s s') (hs : s.Sound) {t : ℕ}
    (ht : t ∈ s.opened) (ha : s.Anchored t) : s'.Anchored t ∧ ∀ k, s.Since t k → s'.Since t k := by
  cases h with
  | put k loc v =>
    exact ⟨anchored_append ha (.inl (Option.some_ne_none loc)), fun _ hk => hk.append (some loc)⟩
  | remove k hn =>
    refine ⟨anchored_append ha (.inr fun he => hn ?_), fun _ hk => hk.append none⟩
    rw [he]
    rfl
  | tick => exact ⟨ha, fun _ hk => hk⟩
  | trim _ horizon hopen htrim => exact htrim.since hs (hopen t ht) ha
  | scratch => exact ⟨ha, fun _ hk => hk⟩

/-- While a snapshot is open, a key once written since stays so. -/
theorem Writes.since {s s' : VersionStore κ L ν} (h : Writes s s') (hs : s.Sound) {t : ℕ}
    (ht : t ∈ s.opened) (ha : s.Anchored t) : s'.Anchored t ∧ ∀ k, s.Since t k → s'.Since t k := by
  induction h with
  | refl => exact ⟨ha, fun _ hk => hk⟩
  | tail h1 h2 ih =>
    have hstep := h2.since (Writes.sound h1 hs) (Writes.opened_eq h1 ▸ ht) ih.1
    exact ⟨hstep.1, fun k hk => hstep.2 k (ih.2 k hk)⟩

end VersionStore

end Adabt.Library
