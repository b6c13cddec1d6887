import Adabt.Exec.Planner
import Adabt.Exec.Rows
import Adabt.Ir.Shape
import Adabt.Library.Table

/-! # Plan and result caches

Decisions by shape, rows by key and epoch. Each cache keeps, beside its map, the
order in which the keys came; the oldest key goes first. -/

set_option autoImplicit false

namespace Adabt.Engine
open Adabt.Exec Adabt.Ir Adabt.Library

structure CacheStats where
  hits : ℕ
  misses : ℕ
  evictions : ℕ
  invalidations : ℕ

namespace CacheStats

def zero : CacheStats := ⟨0, 0, 0, 0⟩

def hit (s : CacheStats) : CacheStats := { s with hits := s.hits + 1 }

def miss (s : CacheStats) : CacheStats := { s with misses := s.misses + 1 }

def evicted (s : CacheStats) : CacheStats := { s with evictions := s.evictions + 1 }

def invalidated (s : CacheStats) : CacheStats := { s with invalidations := s.invalidations + 1 }

end CacheStats

/-- The fields of both caches. -/
structure Cache (κ β : Type) [DecidableEq κ] where
  entries : Table κ β
  order : List κ
  capacity : ℕ
  stats : CacheStats

namespace Cache

variable {κ β : Type} [DecidableEq κ]

def new (capacity : ℕ) : Cache κ β := ⟨∅, [], capacity, .zero⟩

def enabled (c : Cache κ β) : Bool := 0 < c.capacity

def evictOne (c : Cache κ β) : Cache κ β :=
  match c.order with
  | [] => c
  | victim :: rest =>
    { c with entries := c.entries.erase victim, order := rest, stats := c.stats.evicted }

/-- `while entries.len() > capacity { evict_one }`, for the given number of turns. -/
def evictDown : ℕ → Cache κ β → Cache κ β
  | 0, c => c
  | n + 1, c => if c.capacity < c.entries.size then evictDown n c.evictOne else c

/-- The loop run until it ends: one entry goes in each turn. -/
def evict (c : Cache κ β) : Cache κ β := evictDown c.entries.size c

def setCapacity (c : Cache κ β) (capacity : ℕ) : Cache κ β := evict { c with capacity := capacity }

def insert (c : Cache κ β) (k : κ) (v : β) : Cache κ β :=
  if ¬c.enabled then c
  else if (c.entries.get k).isNone then
    evict { c with entries := c.entries.insert k v, order := c.order ++ [k] }
  else { c with entries := c.entries.insert k v }

def clear (c : Cache κ β) : Cache κ β :=
  { c with entries := ∅, order := [], stats := c.stats.invalidated }

end Cache

abbrev PlanCache := Cache QueryShape PlanDecision

def PlanCache.get (c : PlanCache) (shape : QueryShape) : Option PlanDecision × PlanCache :=
  if ¬c.enabled then (none, c)
  else match c.entries.get shape with
    | some d => (some d, { c with stats := c.stats.hit })
    | none => (none, { c with stats := c.stats.miss })

structure ResultEntry where
  collection : String
  epoch : UInt64
  rows : List Row

abbrev ResultCache := Cache QueryKey ResultEntry

namespace ResultCache

/-- An entry of another epoch is a miss, and is dropped. -/
def get (c : ResultCache) (key : QueryKey) (epoch : UInt64) : Option (List Row) × ResultCache :=
  if ¬c.enabled then (none, c)
  else match c.entries.get key with
    | some e =>
      if e.epoch = epoch then (some e.rows, { c with stats := c.stats.hit })
      else
        (none, { c with entries := c.entries.erase key, order := c.order.filter (· ≠ key),
                        stats := c.stats.miss.invalidated })
    | none => (none, { c with stats := c.stats.miss })

def insert (c : ResultCache) (key : QueryKey) (collection : String) (epoch : UInt64)
    (rows : List Row) : ResultCache :=
  Cache.insert c key ⟨collection, epoch, rows⟩

def invalidateCollection (c : ResultCache) (collection : String) : ResultCache :=
  let entries := c.entries.retain fun _ e => e.collection ≠ collection
  { c with
    entries := entries
    order := c.order.filter fun k => (entries.get k).isSome
    stats := if entries.size ≠ c.entries.size then c.stats.invalidated else c.stats }

end ResultCache

/-! ## What one operation does -/

namespace Cache

variable {κ β : Type} [DecidableEq κ] {c : Cache κ β}

/-- The order lists the keys of the entries, each once. -/
structure Listed (c : Cache κ β) : Prop where
  nodup : c.order.Nodup
  mem : ∀ k, k ∈ c.order ↔ (c.entries.get k).isSome

structure Tidy (c : Cache κ β) : Prop extends Listed c where
  bounded : c.entries.size ≤ c.capacity

theorem Listed.length_order (h : c.Listed) : c.order.length = c.entries.size := by
  have hperm : c.order.Perm c.entries.keys :=
    (List.perm_ext_iff_of_nodup h.nodup c.entries.nodup).mpr fun k => by
      rw [h.mem, ← c.entries.mem_keys]; rfl
  rw [hperm.length_eq, Table.keys, List.length_map]
  rfl

/-- What is left after some entries went: they went from both sides, and no other changed. -/
structure Fewer (c c' : Cache κ β) : Prop where
  order : c'.order.Sublist c.order
  get : ∀ k v, c'.entries.get k = some v → c.entries.get k = some v

theorem Fewer.refl (c : Cache κ β) : Fewer c c := ⟨List.Sublist.refl _, fun _ _ h => h⟩

theorem Fewer.trans {c₁ c₂ c₃ : Cache κ β} (h : Fewer c₁ c₂) (h' : Fewer c₂ c₃) : Fewer c₁ c₃ :=
  ⟨h'.order.trans h.order, fun k v hk => h.get k v (h'.get k v hk)⟩

theorem Listed.evictOne (h : c.Listed) : c.evictOne.Listed := by
  unfold Cache.evictOne
  split
  · exact h
  next victim rest hord =>
    have hnd := h.nodup
    rw [hord, List.nodup_cons] at hnd
    refine ⟨hnd.2, fun k => ?_⟩
    have hk := h.mem k
    rw [hord, List.mem_cons] at hk
    change k ∈ rest ↔ ((c.entries.erase victim).get k).isSome
    rw [Table.get_erase]
    split_ifs with heq
    · exact ⟨fun hmem => absurd (heq ▸ hmem) hnd.1, fun hsome => absurd hsome (by simp)⟩
    · rw [← hk, or_iff_right heq]

theorem fewer_evictOne (c : Cache κ β) : Fewer c c.evictOne := by
  unfold Cache.evictOne
  split
  · exact Fewer.refl c
  next victim rest hord =>
    refine ⟨hord ▸ List.sublist_cons_self victim rest, fun k v hk => ?_⟩
    change (c.entries.erase victim).get k = some v at hk
    rw [Table.get_erase] at hk
    split_ifs at hk
    exact hk

@[simp] theorem capacity_evictOne (c : Cache κ β) : c.evictOne.capacity = c.capacity := by
  unfold Cache.evictOne
  split <;> rfl

theorem Listed.size_evictOne (h : c.Listed) : c.evictOne.entries.size = c.entries.size - 1 := by
  rw [← h.evictOne.length_order, ← h.length_order]
  unfold Cache.evictOne
  split
  next hord => rw [hord]; rfl
  next victim rest hord => rw [hord]; rfl

theorem listed_evictDown (n : ℕ) (h : c.Listed) : (evictDown n c).Listed := by
  induction n generalizing c with
  | zero => exact h
  | succ n ih =>
    rw [evictDown]
    split_ifs
    · exact ih h.evictOne
    · exact h

theorem fewer_evictDown (n : ℕ) (c : Cache κ β) : Fewer c (evictDown n c) := by
  induction n generalizing c with
  | zero => exact Fewer.refl c
  | succ n ih =>
    rw [evictDown]
    split_ifs
    · exact (fewer_evictOne c).trans (ih _)
    · exact Fewer.refl c

@[simp] theorem capacity_evictDown (n : ℕ) (c : Cache κ β) :
    (evictDown n c).capacity = c.capacity := by
  induction n generalizing c with
  | zero => rfl
  | succ n ih =>
    rw [evictDown]
    split_ifs
    · rw [ih, capacity_evictOne]
    · rfl

/-- With a turn for every entry the loop ends by its own condition. -/
theorem bounded_evictDown {n : ℕ} (h : c.Listed) (hn : c.entries.size ≤ n) :
    (evictDown n c).entries.size ≤ c.capacity := by
  induction n generalizing c with
  | zero =>
    rw [evictDown]
    omega
  | succ n ih =>
    rw [evictDown]
    split_ifs with hover
    · have hsize := h.size_evictOne
      have hrest := ih h.evictOne (by omega)
      rwa [capacity_evictOne] at hrest
    · exact Nat.le_of_not_lt hover

theorem Listed.evict (h : c.Listed) : c.evict.Tidy :=
  ⟨listed_evictDown _ h, by
    rw [Cache.evict, capacity_evictDown]
    exact bounded_evictDown h le_rfl⟩

theorem fewer_evict (c : Cache κ β) : Fewer c c.evict := fewer_evictDown _ c

/-- What an operation does that files this entry, or none. -/
structure Moves (filed : Option (κ × β)) (c c' : Cache κ β) : Prop where
  tidy : c'.Tidy
  order : c'.order.Sublist c.order ∨
    ∃ k v, filed = some (k, v) ∧ c.entries.get k = none ∧ c'.order.Sublist (c.order ++ [k])
  get : ∀ k v, c'.entries.get k = some v →
    filed = some (k, v) ∨ (∀ w, filed ≠ some (k, w)) ∧ c.entries.get k = some v

theorem Fewer.moves {c' : Cache κ β} (h : Fewer c c') (ht : c'.Tidy) : Moves none c c' :=
  ⟨ht, .inl h.order, fun k v hk => .inr ⟨fun _ => Option.some_ne_none _ ∘ Eq.symm, h.get k v hk⟩⟩

theorem Tidy.moves_same {c' : Cache κ β} (h : c.Tidy) (he : c'.entries = c.entries)
    (ho : c'.order = c.order) (hc : c'.capacity = c.capacity) : Moves none c c' :=
  Fewer.moves ⟨ho ▸ List.Sublist.refl _, fun k v hk => he ▸ hk⟩
    ⟨⟨ho ▸ h.nodup, fun k => by rw [he, ho]; exact h.mem k⟩, he ▸ hc ▸ h.bounded⟩

theorem listed_nil (he : c.entries = ∅) (ho : c.order = []) : c.Listed :=
  ⟨ho ▸ List.nodup_nil, fun k => by rw [he, ho]; simp⟩

theorem tidy_new (capacity : ℕ) : (new capacity : Cache κ β).Tidy :=
  ⟨listed_nil rfl rfl, Nat.zero_le _⟩

theorem Tidy.setCapacity (h : c.Tidy) (n : ℕ) : Moves none c (c.setCapacity n) :=
  have hlisted : Listed { c with capacity := n } := ⟨h.nodup, h.mem⟩
  have hfewer := fewer_evict { c with capacity := n }
  Fewer.moves ⟨hfewer.order, hfewer.get⟩ hlisted.evict

theorem moves_clear (c : Cache κ β) : Moves none c c.clear :=
  Fewer.moves ⟨List.nil_sublist _, fun _ _ hk => absurd hk (Option.some_ne_none _).symm⟩
    ⟨listed_nil rfl rfl, Nat.zero_le _⟩

/-- A cache switched off holds nothing. -/
theorem Tidy.get_off (h : c.Tidy) (hoff : ¬c.enabled) (k : κ) : c.entries.get k = none := by
  have hcap : c.capacity = 0 := by simpa [enabled] using hoff
  have hsize : c.entries.entries.length = 0 := Nat.le_zero.mp (hcap ▸ h.bounded)
  cases hk : c.entries.get k with
  | none => rfl
  | some v =>
    have hmem := (c.entries.get_eq_some_iff k v).mp hk
    rw [List.length_eq_zero_iff.mp hsize] at hmem
    cases hmem

theorem Tidy.insert (h : c.Tidy) (k : κ) (v : β) : Moves (some (k, v)) c (c.insert k v) := by
  have hget {m : Table κ β} {j : κ} {w : β} (hm : m = c.entries.insert k v)
      (hj : m.get j = some w) :
      some (k, v) = some (j, w) ∨ (∀ w', some (k, v) ≠ some (j, w')) ∧ c.entries.get j = some w := by
    rw [hm, Table.get_insert] at hj
    split_ifs at hj with heq
    · rw [heq, Option.some.inj hj]
      exact .inl rfl
    · exact .inr ⟨fun w' hs => heq (congrArg Prod.fst (Option.some.inj hs)).symm, hj⟩
  unfold Cache.insert
  split_ifs with hon hnew
  · have hk : c.entries.get k = none := Option.isNone_iff_eq_none.mp hnew
    have hout : k ∉ c.order := fun hmem => by simpa [hk] using (h.mem k).mp hmem
    have hlisted : Listed { c with entries := c.entries.insert k v, order := c.order ++ [k] } := by
      refine ⟨List.nodup_append.mpr ⟨h.nodup, List.nodup_singleton k, ?_⟩, fun j => ?_⟩
      · rintro a ha b hb rfl
        exact hout (List.mem_singleton.mp hb ▸ ha)
      · change j ∈ c.order ++ [k] ↔ ((c.entries.insert k v).get j).isSome
        rw [List.mem_append, List.mem_singleton, h.mem, Table.get_insert]
        split_ifs with heq
        · simp [heq]
        · simp [heq]
    have hfewer := fewer_evict
      { c with entries := c.entries.insert k v, order := c.order ++ [k] }
    exact ⟨hlisted.evict, .inr ⟨k, v, rfl, hk, hfewer.order⟩,
      fun j w hj => hget rfl (hfewer.get j w hj)⟩
  · have hsome : (c.entries.get k).isSome := Option.isSome_iff_ne_none.mpr
      fun hnone => hnew (Option.isNone_iff_eq_none.mpr hnone)
    have hlisted : Listed { c with entries := c.entries.insert k v } := by
      refine ⟨h.nodup, fun j => ?_⟩
      change j ∈ c.order ↔ ((c.entries.insert k v).get j).isSome
      rw [h.mem, Table.get_insert]
      split_ifs with heq
      · simpa [heq] using hsome
      · rfl
    refine ⟨⟨hlisted, ?_⟩, .inl (List.Sublist.refl _), fun j w hj => hget rfl hj⟩
    change (c.entries.insert k v).size ≤ c.capacity
    have hsize : c.order.length = (c.entries.insert k v).size := hlisted.length_order
    rw [← hsize, h.length_order]
    exact h.bounded
  · -- switched off: the map is empty and stays so
    refine ⟨h, .inl (List.Sublist.refl _), fun j w hj => ?_⟩
    rw [h.get_off hon j] at hj
    cases hj

end Cache

/-! ## What a run of operations leaves -/

section Runs

variable {κ β γ : Type} [DecidableEq κ] (step : γ → Cache κ β → Cache κ β)
  (filed : γ → Option (κ × β))

def Cache.after (capacity : ℕ) (calls : List γ) : Cache κ β :=
  calls.foldl (fun c call => step call c) (.new capacity)

/-- One key was in when the other came, and both have been in ever since. -/
def CameBefore (capacity : ℕ) (calls : List γ) (a b : κ) : Prop :=
  ∃ pre call post v, calls = pre ++ call :: post ∧ filed call = some (b, v) ∧
    ((Cache.after step capacity pre).entries.get a).isSome ∧
    (Cache.after step capacity pre).entries.get b = none ∧
    ∀ t, t <+: post →
      ((Cache.after step capacity (pre ++ call :: t)).entries.get a).isSome ∧
      ((Cache.after step capacity (pre ++ call :: t)).entries.get b).isSome

/-- The entry is that of the last call that filed the key, held in every state since. -/
def LastFiled (capacity : ℕ) (calls : List γ) (k : κ) (v : β) : Prop :=
  ∃ pre call post, calls = pre ++ call :: post ∧ filed call = some (k, v) ∧
    (∀ later ∈ post, ∀ w, filed later ≠ some (k, w)) ∧
    ∀ t, t <+: post → (Cache.after step capacity (pre ++ call :: t)).entries.get k = some v

theorem Cache.after_concat (capacity : ℕ) (calls : List γ) (call : γ) :
    Cache.after step capacity (calls ++ [call]) = step call (Cache.after step capacity calls) := by
  rw [after, List.foldl_append]
  rfl

variable {step filed} {capacity : ℕ} {calls : List γ}

theorem LastFiled.concat {k : κ} {v : β} {call : γ}
    (h : LastFiled step filed capacity calls k v) (hnot : ∀ w, filed call ≠ some (k, w))
    (hget : (Cache.after step capacity (calls ++ [call])).entries.get k = some v) :
    LastFiled step filed capacity (calls ++ [call]) k v := by
  obtain ⟨pre, first, post, rfl, hfiled, hlater, hheld⟩ := h
  refine ⟨pre, first, post ++ [call], by simp, hfiled, ?_, ?_⟩
  · intro later hmem
    rcases List.mem_append.mp hmem with hmem | hmem
    · exact hlater later hmem
    · exact List.mem_singleton.mp hmem ▸ hnot
  · intro t ht
    rcases List.prefix_concat_iff.mp ht with rfl | ht
    · simpa using hget
    · exact hheld t ht

theorem CameBefore.concat {a b : κ} {call : γ} (h : CameBefore step filed capacity calls a b)
    (ha : ((Cache.after step capacity (calls ++ [call])).entries.get a).isSome)
    (hb : ((Cache.after step capacity (calls ++ [call])).entries.get b).isSome) :
    CameBefore step filed capacity (calls ++ [call]) a b := by
  obtain ⟨pre, first, post, v, rfl, hfiled, hin, hout, hheld⟩ := h
  refine ⟨pre, first, post ++ [call], v, by simp, hfiled, hin, hout, fun t ht => ?_⟩
  rcases List.prefix_concat_iff.mp ht with rfl | ht
  · rw [← List.cons_append, ← List.append_assoc]
    exact ⟨ha, hb⟩
  · exact hheld t ht

variable (hmoves : ∀ call c, c.Tidy → Cache.Moves (filed call) c (step call c))
include hmoves

theorem Cache.tidy_after (capacity : ℕ) (calls : List γ) : (Cache.after step capacity calls).Tidy := by
  induction calls using List.reverseRecOn with
  | nil => exact Cache.tidy_new capacity
  | append_singleton calls call ih =>
    rw [Cache.after_concat]
    exact (hmoves call _ ih).tidy

theorem Cache.lastFiled_of_get {k : κ} {v : β}
    (h : (Cache.after step capacity calls).entries.get k = some v) :
    LastFiled step filed capacity calls k v := by
  induction calls using List.reverseRecOn with
  | nil => cases h
  | append_singleton calls call ih =>
    have htidy := Cache.tidy_after hmoves capacity calls
    rw [Cache.after_concat] at h
    rcases (hmoves call _ htidy).get k v h with hfiled | ⟨hnot, hbefore⟩
    · refine ⟨calls, call, [], rfl, hfiled, fun _ hmem => absurd hmem List.not_mem_nil, ?_⟩
      intro t ht
      rw [List.prefix_nil.mp ht, Cache.after_concat]
      exact h
    · rw [← Cache.after_concat step] at h
      exact (ih hbefore).concat hnot h

theorem Cache.order_after (capacity : ℕ) (calls : List γ) :
    (Cache.after step capacity calls).order.Pairwise
      (CameBefore step filed capacity calls) := by
  induction calls using List.reverseRecOn with
  | nil => exact List.Pairwise.nil
  | append_singleton calls call ih =>
    have htidy := Cache.tidy_after hmoves capacity calls
    have htidy' := Cache.tidy_after hmoves capacity (calls ++ [call])
    have hstep := hmoves call _ htidy
    rw [← Cache.after_concat step] at hstep
    have hsome {a : κ} := (htidy'.mem a).mp
    rcases hstep.order with hsub | ⟨k, v, hfiled, hnew, hsub⟩
    · exact (ih.sublist hsub).imp_of_mem fun ha hb h => h.concat (hsome ha) (hsome hb)
    · -- the key that came last stands behind all that were in
      have hpair : ((Cache.after step capacity calls).order ++ [k]).Pairwise fun a b =>
          CameBefore step filed capacity calls a b ∨
            ((Cache.after step capacity calls).entries.get a).isSome ∧ b = k := by
        refine List.pairwise_append.mpr ⟨ih.imp .inl, List.pairwise_singleton _ _, ?_⟩
        intro a ha b hb
        exact .inr ⟨(htidy.mem a).mp ha, List.mem_singleton.mp hb⟩
      refine (hpair.sublist hsub).imp_of_mem fun ha hb h => ?_
      rcases h with h | ⟨hin, rfl⟩
      · exact h.concat (hsome ha) (hsome hb)
      · refine ⟨calls, call, [], v, rfl, hfiled, hin, hnew, fun t ht => ?_⟩
        rw [List.prefix_nil.mp ht]
        exact ⟨hsome ha, hsome hb⟩

/-- Nothing filed before the cache was switched off is left after it. -/
theorem Cache.get_none_of_off (capacity : ℕ) (pre : List γ) (off : γ) {post : List γ} {k : κ}
    (hoff : ∀ c, (step off c).capacity = 0) (hpost : ∀ call ∈ post, ∀ w, filed call ≠ some (k, w)) :
    (Cache.after step capacity (pre ++ off :: post)).entries.get k = none := by
  induction post using List.reverseRecOn with
  | nil =>
    refine (Cache.tidy_after hmoves capacity _).get_off ?_ k
    rw [Cache.after_concat, Cache.enabled, hoff]
    decide
  | append_singleton post call ih =>
    have hrest := ih fun c hc => hpost c (List.mem_append_left _ hc)
    rw [← List.cons_append, ← List.append_assoc, Cache.after_concat]
    refine Option.eq_none_iff_forall_ne_some.mpr fun v hv => ?_
    rcases (hmoves call _ (Cache.tidy_after hmoves capacity _)).get k v hv with hfiled | ⟨-, hbefore⟩
    · exact hpost call (List.mem_append_right _ List.mem_cons_self) v hfiled
    · rw [hrest] at hbefore
      cases hbefore

end Runs

/-! ## The two caches -/

theorem Cache.capacity_setCapacity {κ β : Type} [DecidableEq κ] (c : Cache κ β) (n : ℕ) :
    (c.setCapacity n).capacity = n :=
  Cache.capacity_evictDown _ _

inductive ResultCall where
  | get (key : QueryKey) (epoch : UInt64)
  | insert (key : QueryKey) (collection : String) (epoch : UInt64) (rows : List Row)
  | setCapacity (capacity : ℕ)
  | invalidateCollection (collection : String)
  | clear

namespace ResultCall

def run : ResultCall → ResultCache → ResultCache
  | get key epoch, c => (ResultCache.get c key epoch).2
  | insert key collection epoch rows, c => c.insert key collection epoch rows
  | setCapacity n, c => Cache.setCapacity c n
  | invalidateCollection collection, c => c.invalidateCollection collection
  | clear, c => Cache.clear c

def filed : ResultCall → Option (QueryKey × ResultEntry)
  | insert key collection epoch rows => some (key, ⟨collection, epoch, rows⟩)
  | _ => none

end ResultCall

/-- The state a result cache is in after some calls. -/
def ResultCache.after (capacity : ℕ) (calls : List ResultCall) : ResultCache :=
  Cache.after ResultCall.run capacity calls

theorem ResultCache.moves_get (c : ResultCache) (h : c.Tidy) (key : QueryKey) (epoch : UInt64) :
    Cache.Moves none c (ResultCache.get c key epoch).2 := by
  unfold ResultCache.get
  split_ifs with hon
  · split
    next e hget =>
      split_ifs
      · exact h.moves_same rfl rfl rfl
      · refine Cache.Fewer.moves ⟨List.filter_sublist, fun k v hk => ?_⟩
          ⟨⟨h.nodup.filter _, fun k => ?_⟩, ?_⟩
        · change (c.entries.erase key).get k = some v at hk
          rw [Table.get_erase] at hk
          split_ifs at hk
          exact hk
        · change k ∈ c.order.filter (· ≠ key) ↔ ((c.entries.erase key).get k).isSome
          rw [List.mem_filter, h.mem, Table.get_erase]
          split_ifs with heq
          · simp [heq]
          · simp [heq]
        · exact (List.length_filter_le _ _).trans h.bounded
    · exact h.moves_same rfl rfl rfl
  · exact h.moves_same rfl rfl rfl

theorem ResultCache.moves_invalidateCollection (c : ResultCache) (h : c.Tidy)
    (collection : String) : Cache.Moves none c (c.invalidateCollection collection) := by
  refine Cache.Fewer.moves ⟨List.filter_sublist, fun k v hk => ?_⟩
    ⟨⟨h.nodup.filter _, fun k => ?_⟩, (List.length_filter_le _ _).trans h.bounded⟩
  · change (c.entries.retain fun _ e => e.collection ≠ collection).get k = some v at hk
    rw [Table.get_retain, Option.filter_eq_some_iff] at hk
    exact hk.1
  · change k ∈ c.order.filter (fun k =>
        ((c.entries.retain fun _ e => e.collection ≠ collection).get k).isSome) ↔ _
    rw [List.mem_filter, h.mem]
    refine and_iff_right_of_imp fun hk => ?_
    obtain ⟨v, hv⟩ := Option.isSome_iff_exists.mp hk
    rw [Table.get_retain, Option.filter_eq_some_iff] at hv
    exact Option.isSome_iff_exists.mpr ⟨v, hv.1⟩

theorem ResultCall.moves (call : ResultCall) (c : ResultCache) (h : c.Tidy) :
    Cache.Moves call.filed c (call.run c) := by
  cases call with
  | get key epoch => exact c.moves_get h key epoch
  | insert key collection epoch rows => exact Cache.Tidy.insert h key ⟨collection, epoch, rows⟩
  | setCapacity n => exact Cache.Tidy.setCapacity h n
  | invalidateCollection collection => exact c.moves_invalidateCollection h collection
  | clear => exact Cache.moves_clear c

/-- An answer is the entry of the key, and of the epoch asked for. -/
theorem ResultCache.entry_of_get {c : ResultCache} {key : QueryKey} {epoch : UInt64}
    {rows : List Row} (h : (ResultCache.get c key epoch).1 = some rows) :
    ∃ collection, c.entries.get key = some ⟨collection, epoch, rows⟩ := by
  unfold ResultCache.get at h
  split_ifs at h with hon
  · split at h
    next e hget =>
      split_ifs at h with hepoch
      obtain ⟨collection, _, _⟩ := e
      exact ⟨collection, by rw [hget, ← hepoch, ← Option.some.inj h]⟩
    · cases h

inductive PlanCall where
  | get (shape : QueryShape)
  | insert (shape : QueryShape) (plan : PlanDecision)
  | setCapacity (capacity : ℕ)
  | clear

namespace PlanCall

def run : PlanCall → PlanCache → PlanCache
  | get shape, c => (PlanCache.get c shape).2
  | insert shape plan, c => Cache.insert c shape plan
  | setCapacity n, c => Cache.setCapacity c n
  | clear, c => Cache.clear c

def filed : PlanCall → Option (QueryShape × PlanDecision)
  | insert shape plan => some (shape, plan)
  | _ => none

end PlanCall

def PlanCache.after (capacity : ℕ) (calls : List PlanCall) : PlanCache :=
  Cache.after PlanCall.run capacity calls

theorem PlanCall.moves (call : PlanCall) (c : PlanCache) (h : c.Tidy) :
    Cache.Moves call.filed c (call.run c) := by
  cases call with
  | get shape =>
    change Cache.Moves none c (PlanCache.get c shape).2
    unfold PlanCache.get
    split_ifs with hon
    · split <;> exact h.moves_same rfl rfl rfl
    · exact h.moves_same rfl rfl rfl
  | insert shape plan => exact h.insert shape plan
  | setCapacity n => exact Cache.Tidy.setCapacity h n
  | clear => exact Cache.moves_clear c

theorem PlanCache.entry_of_get {c : PlanCache} {shape : QueryShape} {d : PlanDecision}
    (h : (PlanCache.get c shape).1 = some d) : c.entries.get shape = some d := by
  unfold PlanCache.get at h
  split_ifs at h with hon
  · split at h
    next hget => rw [hget, ← Option.some.inj h]
    · cases h

/-- In every run both caches keep to their capacity and list their keys in the order they
came; an answer is what was last filed under the key and has been held since, and nothing
from before a cache was switched off answers again. -/
theorem caches_faithful :
    (∀ (capacity : ℕ) (calls : List ResultCall),
      (ResultCache.after capacity calls).Tidy ∧
      (ResultCache.after capacity calls).order.Pairwise
        (CameBefore ResultCall.run ResultCall.filed capacity calls) ∧
      (∀ key epoch rows, ((ResultCache.after capacity calls).get key epoch).1 = some rows →
        ∃ collection, LastFiled ResultCall.run ResultCall.filed capacity calls key
          ⟨collection, epoch, rows⟩) ∧
      ∀ pre post key epoch, calls = pre ++ .setCapacity 0 :: post →
        (∀ call ∈ post, ∀ e, call.filed ≠ some (key, e)) →
        ((ResultCache.after capacity calls).get key epoch).1 = none) ∧
    ∀ (capacity : ℕ) (calls : List PlanCall),
      (PlanCache.after capacity calls).Tidy ∧
      (PlanCache.after capacity calls).order.Pairwise
        (CameBefore PlanCall.run PlanCall.filed capacity calls) ∧
      (∀ shape d, ((PlanCache.after capacity calls).get shape).1 = some d →
        LastFiled PlanCall.run PlanCall.filed capacity calls shape d) ∧
      ∀ pre post shape, calls = pre ++ .setCapacity 0 :: post →
        (∀ call ∈ post, ∀ d, call.filed ≠ some (shape, d)) →
        ((PlanCache.after capacity calls).get shape).1 = none := by
  refine ⟨fun capacity calls => ⟨Cache.tidy_after ResultCall.moves capacity calls,
      Cache.order_after ResultCall.moves capacity calls, fun key epoch rows h => ?_,
      fun pre post key epoch hcalls hpost => ?_⟩,
    fun capacity calls => ⟨Cache.tidy_after PlanCall.moves capacity calls,
      Cache.order_after PlanCall.moves capacity calls, fun shape d h => ?_,
      fun pre post shape hcalls hpost => ?_⟩⟩
  · obtain ⟨collection, hget⟩ := ResultCache.entry_of_get h
    exact ⟨collection, Cache.lastFiled_of_get ResultCall.moves hget⟩
  · subst hcalls
    have hnone := Cache.get_none_of_off ResultCall.moves capacity pre (.setCapacity 0)
      (fun c => Cache.capacity_setCapacity c 0) hpost
    refine Option.eq_none_iff_forall_ne_some.mpr fun rows h => ?_
    obtain ⟨collection, hget⟩ := ResultCache.entry_of_get h
    rw [ResultCache.after, hnone] at hget
    cases hget
  · exact Cache.lastFiled_of_get PlanCall.moves (PlanCache.entry_of_get h)
  · subst hcalls
    have hnone := Cache.get_none_of_off PlanCall.moves capacity pre (.setCapacity 0)
      (fun c => Cache.capacity_setCapacity c 0) hpost
    refine Option.eq_none_iff_forall_ne_some.mpr fun d h => ?_
    have hget := PlanCache.entry_of_get h
    rw [PlanCache.after, hnone] at hget
    cases hget

end Adabt.Engine
