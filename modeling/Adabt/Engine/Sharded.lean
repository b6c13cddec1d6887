import Adabt.Engine.Pushdown
import Adabt.Library.Merge

/-! # Queries over shards

A record lives on the shard that its id names. Every shard answers the part of a
plan that reads one row at a time, the answers are merged in id order, and the
whole plan is run once more over the merged rows. -/

set_option autoImplicit false

namespace Adabt.Engine
open Adabt.Core Adabt.Ir Adabt.Exec Adabt.Library

def shardOf (id : RecordId) (shards : ℕ) : ℕ := id.val % shards

/-- A shard, as a query meets it: what it holds and what its planner knows. -/
structure Shard where
  source : QuerySource
  context : PlanContext

def Shard.query (s : Shard) (plan : LogicalOp) : Result (List Row) :=
  planned s.source plan s.context

/-- `open` makes no database of no shards. -/
structure ShardedDatabase where
  shards : List Shard
  nonempty : 0 < shards.length

/-- The scan, and the filters above it. A join has been refused before. -/
def pushdown : LogicalOp → LogicalOp
  | .filter input predicate => .filter (pushdown input) predicate
  | .project input _ | .sort input _ | .limit input _ | .aggregate input _ _ => pushdown input
  | op => op

def isOnlyPushdown : LogicalOp → Bool
  | .scan _ | .getById .. | .getByIds .. => true
  | .filter input _ => isOnlyPushdown input
  | _ => false

def mergeById : List (List Row) → List Row
  | [] => []
  | [rows] => rows
  | perShard => mergeHeads Prod.fst (perShard.map List.length).sum perShard

/-- The merged rows, which stand for the collection of the plan. There are no
indexes over them. -/
def mergedRows (collection : String) (rows : List Row) : QuerySource where
  store := (∅ : OrdMap String _).insert collection ((∅ : OrdMap RecordId Record).insertAll rows)
  indexes := ∅
  columns := ∅

namespace ShardedDatabase

def owner (db : ShardedDatabase) (id : RecordId) : Shard :=
  db.shards.get ⟨shardOf id db.shards.length, Nat.mod_lt _ db.nonempty⟩

/-- What every shard returns, in shard order, or the first error. -/
def broadcast {α : Type} (db : ShardedDatabase) (f : Shard → Result α) : Result (List α) :=
  db.shards.mapM f

/-- Ask every shard, merge, and run what no shard could. -/
def gather (db : ShardedDatabase) (plan : LogicalOp) : Result (List Row) := do
  let perShard ← db.broadcast fun s => s.query (pushdown plan)
  let rows := mergeById perShard
  if isOnlyPushdown plan then return rows
  else planned (mergedRows plan.collection rows) plan .empty

def query (db : ShardedDatabase) (plan : LogicalOp) : Result (List Row) :=
  if plan.containsJoin then
    .error (.error (.unsupported ("joins across a sharded database are not implemented yet; " ++
      "query a single shard's Database directly via ShardedDatabase::shard")))
  else match plan with
    | .getById _ id => (db.owner id).query plan
    | _ => db.gather plan

/-- The shards hold what one database holds, each the records that it owns. -/
def Parts (db : ShardedDatabase) (whole : QuerySource) : Prop :=
  ∀ (i : Fin db.shards.length) (collection : String),
    (db.shards.get i).source.store.get collection =
      (whole.store.get collection).map fun records =>
        records.filter fun id _ => shardOf id db.shards.length = i.val

end ShardedDatabase

/-- The decision made for a plan serves it, over structures that hold the records. -/
structure Shard.Serves (s : Shard) (plan : LogicalOp) : Prop where
  holds : s.source.Holds
  decision : Exec.Serves s.source plan (decide plan s.context).access

/-! ## Merging -/

theorem mergeById_spec {perShard : List (List Row)} (hs : AscendingEach Prod.fst perShard)
    (hd : (perShard.flatten.map Prod.fst).Nodup) :
    (mergeById perShard).Pairwise (fun a b => a.1 < b.1) ∧
      (mergeById perShard).Perm perShard.flatten := by
  match perShard, hs with
  | [], _ => exact ⟨List.Pairwise.nil, List.Perm.refl _⟩
  | [rows], hs => exact ⟨hs rows List.mem_cons_self, by simp [mergeById]⟩
  | a :: b :: more, hs =>
    have hlen : (a :: b :: more).flatten.length ≤ ((a :: b :: more).map List.length).sum :=
      List.length_flatten.le
    exact ⟨mergeHeads_ascending hs hd hlen, mergeHeads_perm hlen⟩

/-- The parts of an ascending list merge into the list. -/
theorem mergeById_parts {rows : List Row} (hr : rows.Pairwise fun a b => a.1 < b.1) {n : ℕ}
    (hn : 0 < n) :
    mergeById ((List.range n).map fun i => rows.filter fun r => shardOf r.1 n = i) = rows := by
  have hs : AscendingEach Prod.fst
      ((List.range n).map fun i => rows.filter fun r => shardOf r.1 n = i) := by
    intro l hl
    obtain ⟨i, -, rfl⟩ := List.mem_map.mp hl
    exact hr.filter _
  have hd : (((List.range n).map fun i => rows.filter fun r => shardOf r.1 n = i).flatten.map
      Prod.fst).Nodup := by
    rw [← List.flatMap_def, List.map_flatMap, List.nodup_flatMap]
    constructor
    · intro i _
      exact List.pairwise_map.mpr ((hr.filter _).imp fun h => h.ne)
    · refine (List.nodup_range (n := n)).imp fun {i j} hij id hi hj => hij ?_
      obtain ⟨r, hri, rfl⟩ := List.mem_map.mp hi
      obtain ⟨s, hsj, hid⟩ := List.mem_map.mp hj
      have hi' := of_decide_eq_true (List.mem_filter.mp hri).2
      have hj' := of_decide_eq_true (List.mem_filter.mp hsj).2
      rw [← hi', ← hj', hid]
  obtain ⟨hasc, hperm⟩ := mergeById_spec hs hd
  apply ascending_ext Prod.fst hasc hr
  intro r
  rw [hperm.mem_iff, List.mem_flatten]
  constructor
  · rintro ⟨l, hl, hrl⟩
    obtain ⟨i, -, rfl⟩ := List.mem_map.mp hl
    exact List.mem_of_mem_filter hrl
  · intro hmem
    refine ⟨_, List.mem_map_of_mem (List.mem_range.mpr (Nat.mod_lt r.1.val hn)), ?_⟩
    exact List.mem_filter.mpr ⟨hmem, decide_eq_true rfl⟩

/-! ## Merging with cursors -/

/-- The rows of a shard and the place of the next one. -/
structure RowCursor where
  rows : List Row
  place : ℕ

namespace RowCursor

def row (c : RowCursor) : Option Row := c.rows[c.place]?

/-- Take the row at the cursor and leave a default in its place. -/
def take (c : RowCursor) : RowCursor := ⟨c.rows.set c.place (0, ∅), c.place + 1⟩

/-- The rows not taken yet. -/
def pending (c : RowCursor) : List Row := c.rows.drop c.place

theorem pending_of_row {c : RowCursor} {r : Row} (h : c.row = some r) :
    c.pending = r :: c.take.pending := by
  have hdrop : c.take.pending = c.rows.drop (c.place + 1) :=
    List.drop_set_of_lt (Nat.lt_succ_self c.place)
  obtain ⟨hlt, rfl⟩ := List.getElem?_eq_some_iff.mp h
  rw [pending, hdrop]
  exact List.drop_eq_getElem_cons hlt

theorem row_of_pending {c : RowCursor} {r : Row} {m : List Row} (h : c.pending = r :: m) :
    c.row = some r := by
  rw [row, ← List.head?_drop, ← pending, h]
  rfl

theorem row_eq_none {c : RowCursor} : c.row = none ↔ c.pending = [] := by
  rw [row, pending, List.getElem?_eq_none_iff, List.drop_eq_nil_iff]

end RowCursor

def outOfBounds (len index : ℕ) : Fault :=
  .panicked ("index out of bounds: the len is " ++ toString len ++ " but the index is " ++
    toString index)

/-- `per_shard[i][cursors[i]]` -/
def rowAt (shards : List RowCursor) (i : ℕ) : Except Fault Row :=
  match shards[i]? with
  | none => .error (outOfBounds shards.length i)
  | some c => c.row.elim (.error (outOfBounds c.rows.length c.place)) .ok

/-- The shard whose row comes first, `best` so far and `i` the next of the shards to look at. -/
def bestOf (shards : List RowCursor) : ℕ → Option ℕ → List RowCursor → Except Fault (Option ℕ)
  | _, best, [] => .ok best
  | i, best, rows :: rest => match rows.row with
    | none => bestOf shards (i + 1) best rest
    | some (id, _) => match best with
      | none => bestOf shards (i + 1) (some i) rest
      | some b => do
        let (first, _) ← rowAt shards b
        bestOf shards (i + 1) (if id < first then some i else some b) rest

def mergeLoop : ℕ → List RowCursor → List Row → Except Fault (List Row)
  | 0, _, out => .ok out
  | n + 1, shards, out => do
    match ← bestOf shards 0 none shards with
    | none => return out
    | some i =>
      let row ← rowAt shards i
      mergeLoop n (shards.modify i .take) (out ++ [row])

/-- `merge_by_id`, with a cursor for every shard. -/
def mergeByCursors : List (List Row) → Except Fault (List Row)
  | [] => .ok []
  | [rows] => .ok rows
  | perShard => mergeLoop (perShard.map List.length).sum (perShard.map fun rows => ⟨rows, 0⟩) []

/-- The shard holds the first of the least rows among those before place `n`. -/
def FirstLeast (shards : List RowCursor) (n b : ℕ) : Prop :=
  ∃ c r, shards[b]? = some c ∧ c.row = some r ∧ b < n ∧
    (∀ j < b, ∀ d s, shards[j]? = some d → d.row = some s → r.1 < s.1) ∧
    ∀ j < n, b < j → ∀ d s, shards[j]? = some d → d.row = some s → r.1 ≤ s.1

/-- What `best` is after the shards before place `n`. -/
def Best (shards : List RowCursor) (n : ℕ) : Option ℕ → Prop
  | none => ∀ j < n, ∀ d, shards[j]? = some d → d.row = none
  | some b => FirstLeast shards n b

section Best

variable {shards : List RowCursor} {n : ℕ} {c : RowCursor} {r : Row}

theorem Best.passed {best : Option ℕ} (h : Best shards n best) (hn : shards[n]? = some c)
    (hc : c.row = none) : Best shards (n + 1) best := by
  cases best with
  | none =>
    intro j hj d hd
    rcases Nat.lt_succ_iff_lt_or_eq.mp hj with hj | rfl
    · exact h j hj d hd
    · rwa [← Option.some.inj (hn.symm.trans hd)]
  | some b =>
    obtain ⟨d, s, hd, hs, hb, hbefore, hafter⟩ := h
    refine ⟨d, s, hd, hs, Nat.lt_succ_of_lt hb, hbefore, fun j hj hbj e t he ht => ?_⟩
    rcases Nat.lt_succ_iff_lt_or_eq.mp hj with hj | rfl
    · exact hafter j hj hbj e t he ht
    · rw [← Option.some.inj (hn.symm.trans he), hc] at ht
      cases ht

theorem Best.first (h : Best shards n none) (hn : shards[n]? = some c) (hc : c.row = some r) :
    Best shards (n + 1) (some n) := by
  refine ⟨c, r, hn, hc, Nat.lt_succ_self n, fun j hj d s hd hs => ?_, fun j hj hnj => by omega⟩
  rw [h j hj d hd] at hs
  cases hs

/-- A row that is less than the best so far comes before all of them. -/
theorem Best.less {b : ℕ} {d : RowCursor} {s : Row} (h : Best shards n (some b))
    (hn : shards[n]? = some c) (hc : c.row = some r) (hd : shards[b]? = some d)
    (hs : d.row = some s) (hlt : r.1 < s.1) : Best shards (n + 1) (some n) := by
  obtain ⟨d', s', hd', hs', hb, hbefore, hafter⟩ := h
  obtain rfl : d' = d := Option.some.inj (hd'.symm.trans hd)
  obtain rfl : s' = s := Option.some.inj (hs'.symm.trans hs)
  refine ⟨c, r, hn, hc, Nat.lt_succ_self n, fun j hj e t he ht => ?_, fun j hj hnj => by omega⟩
  rcases Nat.lt_trichotomy j b with hjb | rfl | hbj
  · exact hlt.trans (hbefore j hjb e t he ht)
  · obtain rfl : d' = e := Option.some.inj (hd.symm.trans he)
    rwa [← Option.some.inj (hs.symm.trans ht)]
  · exact hlt.trans_le (hafter j hj hbj e t he ht)

theorem Best.kept {b : ℕ} {d : RowCursor} {s : Row} (h : Best shards n (some b))
    (hn : shards[n]? = some c) (hc : c.row = some r) (hd : shards[b]? = some d)
    (hs : d.row = some s) (hle : ¬r.1 < s.1) : Best shards (n + 1) (some b) := by
  obtain ⟨d', s', hd', hs', hb, hbefore, hafter⟩ := h
  obtain rfl : d' = d := Option.some.inj (hd'.symm.trans hd)
  obtain rfl : s' = s := Option.some.inj (hs'.symm.trans hs)
  refine ⟨d', s', hd, hs, Nat.lt_succ_of_lt hb, hbefore, fun j hj hbj e t he ht => ?_⟩
  rcases Nat.lt_succ_iff_lt_or_eq.mp hj with hj | rfl
  · exact hafter j hj hbj e t he ht
  · obtain rfl : c = e := Option.some.inj (hn.symm.trans he)
    rw [← Option.some.inj (hc.symm.trans ht)]
    exact not_lt.mp hle

end Best

theorem rowAt_eq {shards : List RowCursor} {i : ℕ} {c : RowCursor} {r : Row}
    (hi : shards[i]? = some c) (hc : c.row = some r) : rowAt shards i = .ok r := by
  rw [rowAt, hi]
  dsimp only
  rw [hc]
  rfl

/-- One pass over the shards finds the first of the least rows, and compares with no row
that was taken. -/
theorem bestOf_best {shards rest : List RowCursor} {n : ℕ} {best : Option ℕ}
    (hrest : shards.drop n = rest) (h : Best shards n best) :
    ∃ b, bestOf shards n best rest = .ok b ∧ Best shards (n + rest.length) b := by
  induction rest generalizing n best with
  | nil => exact ⟨best, rfl, h⟩
  | cons c rest ih =>
    have hn : shards[n]? = some c := by rw [← List.head?_drop, hrest]; rfl
    have hdrop : shards.drop (n + 1) = rest := by
      rw [← List.tail_drop, hrest]
      rfl
    rw [bestOf, List.length_cons, ← Nat.add_assoc, Nat.add_right_comm]
    cases hc : c.row with
    | none => exact ih hdrop (h.passed hn hc)
    | some r =>
      cases best with
      | none => exact ih hdrop (h.first hn hc)
      | some b =>
        obtain ⟨d, s, hd, hs, -⟩ := id h
        dsimp only
        rw [rowAt_eq hd hs, ok_bind]
        split_ifs with hlt
        · exact ih hdrop (h.less hn hc hd hs hlt)
        · exact ih hdrop (h.kept hn hc hd hs hlt)

/-- Taking at one cursor leaves the other shards as they are. -/
theorem map_pending_modify {shards : List RowCursor} {i : ℕ} {c : RowCursor}
    (hi : shards[i]? = some c) :
    (shards.modify i .take).map RowCursor.pending =
      (shards.map RowCursor.pending).set i c.take.pending := by
  apply List.ext_getElem?
  intro j
  rw [List.getElem?_map, List.getElem?_modify, List.getElem?_set, List.getElem?_map]
  split_ifs with hj hlen
  · rw [← hj, hi]
    rfl
  · obtain ⟨hlt, -⟩ := List.getElem?_eq_some_iff.mp hi
    rw [List.length_map] at hlen
    omega
  · rw [id_map']

theorem mergeLoop_eq (n : ℕ) (shards : List RowCursor) (out : List Row) :
    mergeLoop n shards out =
      .ok (out ++ mergeHeads Prod.fst n (shards.map RowCursor.pending)) := by
  induction n generalizing shards out with
  | zero => rw [mergeLoop, mergeHeads, List.append_nil]
  | succ n ih =>
    have hnone : Best shards 0 none := fun j hj => by omega
    obtain ⟨best, hbest, h⟩ := bestOf_best rfl hnone
    rw [List.drop_zero] at hbest h
    rw [mergeLoop, hbest, ok_bind, mergeHeads]
    cases best with
    | none =>
      have hall : ∀ l ∈ shards.map RowCursor.pending, l = [] := by
        intro l hl
        obtain ⟨c, hc, rfl⟩ := List.mem_map.mp hl
        obtain ⟨j, hj, rfl⟩ := List.getElem_of_mem hc
        exact RowCursor.row_eq_none.mp (h j (by omega) _ (List.getElem?_eq_getElem hj))
      rw [takeLeast_eq_none hall, List.append_nil]
      rfl
    | some b =>
      obtain ⟨c, r, hb, hc, hlt, hbefore, hafter⟩ := h
      have hpending : (shards.map RowCursor.pending)[b]? = some (r :: c.take.pending) := by
        rw [List.getElem?_map, hb, Option.map_some, RowCursor.pending_of_row hc]
      have htake : takeLeast Prod.fst (shards.map RowCursor.pending) =
          some (r, (shards.modify b .take).map RowCursor.pending) := by
        rw [map_pending_modify hb]
        apply takeLeast_first hpending
        · intro j hj s m hs
          obtain ⟨d, hd, hm⟩ := Option.map_eq_some_iff.mp (List.getElem?_map ▸ hs)
          exact hbefore j hj d s hd (RowCursor.row_of_pending hm)
        · intro j hj s m hs
          obtain ⟨d, hd, hm⟩ := Option.map_eq_some_iff.mp (List.getElem?_map ▸ hs)
          obtain ⟨hlt, -⟩ := List.getElem?_eq_some_iff.mp hd
          exact hafter j (by omega) hj d s hd (RowCursor.row_of_pending hm)
      dsimp only
      rw [rowAt_eq hb hc, ok_bind, ih, htake, List.append_assoc]
      rfl

/-- The merge with cursors is the merge of the lists. -/
theorem mergeByCursors_eq (perShard : List (List Row)) :
    mergeByCursors perShard = .ok (mergeById perShard) := by
  match perShard with
  | [] => rfl
  | [rows] => rfl
  | a :: b :: more =>
    have hpending :
        ((a :: b :: more).map fun rows => (⟨rows, 0⟩ : RowCursor)).map RowCursor.pending =
          a :: b :: more := by
      rw [List.map_map]
      exact List.map_id _
    change mergeLoop _ _ [] = _
    rw [mergeLoop_eq, hpending]
    rfl

/-- No row of an ascending list has the id of another, and none that of a row elsewhere. -/
theorem nodup_ids {perShard : List (List Row)} (hs : AscendingEach Prod.fst perShard)
    (hd : perShard.Pairwise fun a b => ∀ r ∈ a, ∀ s ∈ b, r.1 ≠ s.1) :
    (perShard.flatten.map Prod.fst).Nodup := by
  rw [List.map_flatten, List.nodup_flatten]
  constructor
  · intro ids hids
    obtain ⟨rows, hrows, rfl⟩ := List.mem_map.mp hids
    exact List.pairwise_map.mpr ((hs rows hrows).imp fun h => h.ne)
  · refine List.pairwise_map.mpr (hd.imp fun {a b} hab id ha hb => ?_)
    obtain ⟨r, hr, rfl⟩ := List.mem_map.mp ha
    obtain ⟨s, hsb, heq⟩ := List.mem_map.mp hb
    exact hab r hr s hsb heq.symm

/-- The merge reads no row that it took, and returns all rows in ascending order. -/
theorem merge_by_cursors_exact {perShard : List (List Row)}
    (hs : ∀ rows ∈ perShard, rows.Pairwise fun a b => a.1 < b.1)
    (hd : perShard.Pairwise fun a b => ∀ r ∈ a, ∀ s ∈ b, r.1 ≠ s.1) :
    ∃ rows, mergeByCursors perShard = .ok rows ∧ rows.Pairwise (fun a b => a.1 < b.1) ∧
      rows.Perm perShard.flatten :=
  ⟨mergeById perShard, mergeByCursors_eq perShard, mergeById_spec hs (nodup_ids hs hd)⟩

theorem merge_by_cursors_exact_three :
    ∃ rows, mergeByCursors [[(2, ∅)], [], [(1, ∅), (3, ∅)]] = .ok rows ∧
      rows.Pairwise (fun a b => a.1 < b.1) ∧
        rows.Perm [[(2, ∅)], [], [(1, ∅), (3, ∅)]].flatten :=
  merge_by_cursors_exact (by decide) (by decide)

/-! ## What a shard answers -/

theorem containsJoin_pushdown {op : LogicalOp} (hj : op.containsJoin = false) :
    (pushdown op).containsJoin = false := by
  induction op with
  | filter _ _ ih | project _ _ ih | sort _ _ ih | limit _ _ ih | aggregate _ _ _ ih => exact ih hj
  | getById _ _ | getByIds _ _ | scan _ => rfl
  | join _ _ _ _ => cases hj

theorem answer_pushdown (src : QuerySource) (op : LogicalOp) :
    answer src (pushdown op) =
      (List.filter fun r => passesFilters op r.2) <$> answer src (leaf op) := by
  have hall : ∀ x : Result (List Row), x = (List.filter fun _ => true) <$> x := by
    intro x
    have hid : (List.filter fun _ => true : List Row → List Row) = id := funext List.filter_true
    rw [hid, id_map]
  induction op with
  | getById _ _ | getByIds _ _ | scan _ | join _ _ _ _ => exact hall _
  | filter input predicate ih =>
    rw [pushdown, answer, ih, ← comp_map]
    congr 1
    funext rows
    rw [Function.comp_apply, List.filter_filter]
    simp only [passesFilters, Bool.and_comm]
  | project _ _ ih | sort _ _ ih | limit _ _ ih | aggregate _ _ _ ih => exact ih

/-- A plan of filters keeps the rows that pass them. -/
theorem over_onlyPushdown {op : LogicalOp} (h : isOnlyPushdown op) (rows : List Row) :
    above rows op = rows.filter fun r => passesFilters op r.2 := by
  induction op with
  | getById _ _ | getByIds _ _ | scan _ => exact (List.filter_eq_self.mpr fun _ _ => rfl).symm
  | filter input predicate ih =>
    rw [above, ih h, List.filter_filter]
    simp only [passesFilters, Bool.and_comm]
  | _ => cases h

variable {src part : QuerySource}

/-- Of the rows of a leaf, a part of the records has those that it keeps. -/
theorem answer_leaf_part {keep : RecordId → Bool}
    (h : ∀ collection, part.store.get collection =
      (src.store.get collection).map fun records => records.filter fun id _ => keep id)
    {op : LogicalOp} (hj : op.containsJoin = false) :
    answer part (leaf op) = (List.filter fun r => keep r.1) <$> answer src (leaf op) := by
  induction op with
  | filter _ _ ih | project _ _ ih | sort _ _ ih | limit _ _ ih | aggregate _ _ _ ih => exact ih hj
  | join _ _ _ _ => cases hj
  | scan collection =>
    simp only [leaf, answer, QuerySource.records, h]
    cases src.store.get collection <;> rfl
  | getByIds collection ids =>
    simp only [leaf, answer, QuerySource.records, h]
    split_ifs
    · rfl
    · cases src.store.get collection with
      | none => rfl
      | some records =>
        have hboth : (records.filter fun id _ => keep id).entries =
            records.entries.filter fun r => keep r.1 := rfl
        refine congrArg Except.ok ?_
        rw [hboth, List.filter_filter, List.filter_filter]
        simp only [Bool.and_comm]
  | getById collection id =>
    simp only [leaf, answer, QuerySource.fetch, QuerySource.records, h]
    cases src.store.get collection with
    | none => rfl
    | some records =>
      refine congrArg Except.ok ?_
      rw [OrdMap.get_filter]
      cases records.get id with
      | none => rfl
      | some rec => cases hk : keep id <;> simp [hk]

/-- The rows of a leaf come in id order. -/
theorem answer_leaf_ascending {op : LogicalOp} {rows : List Row}
    (h : answer src (leaf op) = .ok rows) : rows.Pairwise fun a b => a.1 < b.1 := by
  induction op with
  | filter _ _ ih | project _ _ ih | sort _ _ ih | limit _ _ ih | aggregate _ _ _ ih => exact ih h
  | join _ _ _ _ => cases h
  | scan collection =>
    obtain ⟨records, -, h⟩ := bind_eq_ok.mp h
    cases h
    exact records.sorted
  | getByIds collection ids =>
    simp only [leaf, answer] at h
    split_ifs at h
    · cases h
      exact List.Pairwise.nil
    · obtain ⟨records, -, h⟩ := bind_eq_ok.mp h
      cases h
      exact records.sorted.filter _
  | getById collection id =>
    obtain ⟨found, -, h⟩ := bind_eq_ok.mp h
    cases h
    cases found with
    | none => exact List.Pairwise.nil
    | some rec => exact List.pairwise_singleton _ _

/-- Where some of the rows of its leaf are all there is, the leaf reads them all. -/
theorem answer_leaf_again {merged : QuerySource} {op : LogicalOp} {rows : List Row}
    (h : answer src (leaf op) = .ok rows) (p : Row → Bool)
    (hstore : merged.store.get op.collection =
      some ⟨rows.filter p, (answer_leaf_ascending h).filter p⟩) :
    answer merged (leaf op) = .ok (rows.filter p) := by
  induction op with
  | filter _ _ ih | project _ _ ih | sort _ _ ih | limit _ _ ih | aggregate _ _ _ ih =>
    exact ih h hstore
  | join _ _ _ _ => cases h
  | scan collection =>
    replace hstore : merged.store.get collection = _ := hstore
    simp only [leaf, answer]
    rw [records_ok hstore]
    rfl
  | getByIds collection ids =>
    replace hstore : merged.store.get collection = _ := hstore
    simp only [leaf, answer] at h ⊢
    split_ifs at h ⊢ with hids
    · cases h
      rfl
    · obtain ⟨records, -, h⟩ := bind_eq_ok.mp h
      cases h
      rw [records_ok hstore]
      refine congrArg Except.ok (List.filter_eq_self.mpr fun r hr => ?_)
      exact (List.mem_filter.mp (List.mem_of_mem_filter hr)).2
  | getById collection id =>
    replace hstore : merged.store.get collection = _ := hstore
    simp only [leaf, answer] at h ⊢
    obtain ⟨found, -, h⟩ := bind_eq_ok.mp h
    cases h
    rw [fetch_eq hstore]
    refine congrArg Except.ok ?_
    cases found with
    | none => rfl
    | some rec => cases hp : p (id, rec) <;> simp [OrdMap.get, OrdMap.find, hp]

theorem answer_mergedRows {op : LogicalOp} {rows : List Row} (h : answer src (leaf op) = .ok rows)
    (p : Row → Bool) :
    answer (mergedRows op.collection (rows.filter p)) (leaf op) = .ok (rows.filter p) := by
  apply answer_leaf_again h p
  rw [mergedRows, OrdMap.get_insert_self]
  exact congrArg some (OrdMap.insertAll_entries ⟨rows.filter p, _⟩)

theorem mergedRows_holds (collection : String) (rows : List Row) :
    (mergedRows collection rows).Holds where
  indexes := nofun
  columns := nofun

namespace ShardedDatabase
variable {db : ShardedDatabase} {plan : LogicalOp}

theorem answer_shard (hparts : db.Parts src) (hj : plan.containsJoin = false)
    (i : Fin db.shards.length) :
    answer (db.shards.get i).source (leaf plan) =
      (List.filter fun r => shardOf r.1 db.shards.length = i.val) <$> answer src (leaf plan) :=
  @answer_leaf_part _ _ (fun id => shardOf id db.shards.length = i.val) (hparts i) _ hj

/-- What the shards answer merges into the rows of the leaf that pass the filters. -/
theorem broadcast_pushdown (hparts : db.Parts src) (hj : plan.containsJoin = false)
    (hs : ∀ s ∈ db.shards, s.Serves (pushdown plan)) :
    mergeById <$> (db.broadcast fun s => s.query (pushdown plan)) =
      (List.filter fun r => passesFilters plan r.2) <$> answer src (leaf plan) := by
  have hshard : ∀ i : Fin db.shards.length, (db.shards.get i).query (pushdown plan) =
      (List.filter fun r => passesFilters plan r.2) <$>
        (List.filter fun r => shardOf r.1 db.shards.length = i.val) <$> answer src (leaf plan) := by
    intro i
    have hserves := hs _ (List.get_mem db.shards i)
    rw [Shard.query, planned_answer hserves.holds (containsJoin_pushdown hj) hserves.decision,
      answer_pushdown, answer_shard hparts hj]
  rw [broadcast]
  cases hleaf : answer src (leaf plan) with
  | error e =>
    obtain ⟨s, rest, hlist⟩ := List.exists_cons_of_length_pos db.nonempty
    have hfirst := hshard ⟨0, db.nonempty⟩
    have hget : db.shards.get ⟨0, db.nonempty⟩ = s := by simp [hlist]
    rw [hleaf, hget] at hfirst
    have hfails : (s :: rest).mapM (fun s : Shard => s.query (pushdown plan)) = .error e :=
      mapM_error hfirst
    rw [hlist, hfails]
    rfl
  | ok rows =>
    have hrows : db.shards.mapM (fun s => s.query (pushdown plan)) =
        .ok ((List.range db.shards.length).map fun i =>
          (rows.filter fun r => passesFilters plan r.2).filter fun r =>
            shardOf r.1 db.shards.length = i) := by
      apply mapM_ok
      rw [List.forall₂_iff_get]
      refine ⟨by simp, fun i hi _ => ?_⟩
      have hi := hshard ⟨i, hi⟩
      rw [hleaf] at hi
      refine hi.trans (congrArg Except.ok ?_)
      simp only [List.get_eq_getElem, List.getElem_map, List.getElem_range, List.filter_filter,
        Bool.and_comm]
    rw [hrows]
    refine congrArg Except.ok (mergeById_parts ?_ db.nonempty)
    exact (answer_leaf_ascending hleaf).filter _

theorem containsJoin_ne {plan : LogicalOp} (hj : plan.containsJoin = false) :
    ¬ plan.containsJoin = true := by
  rw [hj]
  exact Bool.false_ne_true

theorem gather_over (hparts : db.Parts src) (hj : plan.containsJoin = false)
    (hs : ∀ s ∈ db.shards, s.Serves (pushdown plan)) :
    db.gather plan = (fun rows => above (rows.filter fun r => passesFilters plan r.2) plan) <$>
      answer src (leaf plan) := by
  have hpush := broadcast_pushdown hparts hj hs
  rw [gather]
  cases hleaf : answer src (leaf plan) with
  | error e =>
    rw [hleaf] at hpush
    cases hb : db.broadcast fun s => s.query (pushdown plan) <;> rw [hb] at hpush <;> cases hpush
    rfl
  | ok rows =>
    rw [hleaf] at hpush
    obtain ⟨perShard, hb, hmerge⟩ := map_eq_ok.mp hpush
    rw [hb, ok_bind, hmerge]
    simp only
    split_ifs with honly
    · refine congrArg Except.ok (Eq.symm ?_)
      refine (over_onlyPushdown honly _).trans ?_
      rw [List.filter_filter]
      simp only [Bool.and_self]
    · rw [planned_answer (mergedRows_holds _ _) hj (.of_pathless (decide_empty plan)),
        answer_over _ hj, answer_mergedRows hleaf]
      rfl

/-- A query over shards computes on the rows that pass every filter of its plan. -/
theorem query_over (hparts : db.Parts src) (hj : plan.containsJoin = false)
    (hs : ∀ s ∈ db.shards, s.Serves (pushdown plan)) :
    db.query plan = (fun rows => above (rows.filter fun r => passesFilters plan r.2) plan) <$>
      answer src (leaf plan) := by
  refine (if_neg (containsJoin_ne hj)).trans ?_
  cases plan with
  | getById collection id =>
    -- The record named is on its owner, and there alone.
    let i : Fin db.shards.length := ⟨shardOf id db.shards.length, Nat.mod_lt _ db.nonempty⟩
    have hserves := hs _ (List.get_mem db.shards i)
    refine (planned_answer hserves.holds hj hserves.decision).trans ?_
    refine (answer_shard hparts hj i).trans ?_
    simp only [leaf, answer]
    cases src.fetch collection id with
    | error e => rfl
    | ok found =>
      refine congrArg Except.ok ?_
      cases found <;> simp [above, passesFilters, i]
  | _ => exact gather_over hparts hj hs

/-- The records of a source split over shards, without structures over them. -/
def split (whole : QuerySource) (shards : ℕ) (h : 0 < shards) : ShardedDatabase where
  shards := (List.range shards).map fun i =>
    ⟨⟨whole.store.mapVal fun _ records => records.filter fun id _ => shardOf id shards = i, ∅, ∅⟩,
      .empty⟩
  nonempty := by simpa using h

theorem split_parts (whole : QuerySource) {shards : ℕ} (h : 0 < shards) :
    (split whole shards h).Parts whole := by
  intro i collection
  have hget : (split whole shards h).shards.get i =
      ⟨⟨whole.store.mapVal fun _ records => records.filter fun id _ => shardOf id shards = i.val,
        ∅, ∅⟩, .empty⟩ := by
    rw [List.get_eq_getElem]
    simp only [split, List.getElem_map, List.getElem_range]
  have hlen : (split whole shards h).shards.length = shards := by simp [split]
  rw [hget]
  simp only [OrdMap.get_mapVal, hlen]

theorem split_serves (whole : QuerySource) {shards : ℕ} (h : 0 < shards) (plan : LogicalOp) :
    ∀ s ∈ (split whole shards h).shards, s.Serves plan := by
  intro s hs
  obtain ⟨i, -, rfl⟩ := List.mem_map.mp hs
  exact ⟨⟨nofun, nofun⟩, .of_pathless (decide_empty plan)⟩

def flagStore : QuerySource where
  store := (∅ : OrdMap String (OrdMap RecordId Record)).insert "c" twoFlags
  indexes := ∅
  columns := ∅

def isLowered : Expr := .compare .eq (.field "f") (.literal (.bool false))

def flagWhole : Shard := ⟨flagStore, .empty⟩

theorem flagWhole_serves (plan : LogicalOp) : flagWhole.Serves plan :=
  ⟨⟨nofun, nofun⟩, .of_pathless (decide_empty plan)⟩

end ShardedDatabase

end Adabt.Engine
