import Adabt.Exec.Join
import Adabt.Exec.RunRows

/-! # The two join algorithms agree

Both are the nested loop over all pairs where the keys of the join are
interchangeable: equal keys feed the hasher alike, and equality carries over.
Float rounding and decimal scales break both, and then the table files right
rows under a key that is not theirs, or does not find the one that is. -/

set_option autoImplicit false

namespace Adabt.Exec
open Adabt.Core Adabt.Ir Adabt.Indexing Adabt.Library

variable {α β : Type}

/-! ## Results within a budget -/

/-- The result is this, unless a budget cut the query short. -/
def Gives (budget : ExecBudget) (r : Result α) (a : α) : Prop :=
  r = .ok a ∨ budget ≠ .unbounded ∧ ∃ m, r = .error (.error (.cancelled m))

variable {budget : ExecBudget}

namespace Gives

theorem ok (a : α) : Gives budget (.ok a) a := .inl rfl

theorem bind {r : Result α} {a : α} {f : α → Result β} {b : β} (h : Gives budget r a)
    (hf : Gives budget (f a) b) : Gives budget (r >>= f) b := by
  rcases h with rfl | ⟨hb, m, rfl⟩
  · exact hf
  · exact .inr ⟨hb, m, rfl⟩

theorem eq_of_ok {r : Result α} {a b : α} (h : Gives budget r a) (hr : r = .ok b) : b = a := by
  rcases h with h | ⟨-, m, h⟩
  · rw [hr] at h
    cases h
    rfl
  · rw [hr] at h
    cases h

theorem unbounded {r : Result α} {a : α} (h : Gives .unbounded r a) : r = .ok a := by
  rcases h with h | ⟨hne, -⟩
  · exact h
  · exact absurd rfl hne

end Gives

theorem gives_checkCancelled (looked : ℕ) : Gives budget (budget.checkCancelled looked) () := by
  unfold ExecBudget.checkCancelled
  split
  · rename_i hc
    refine .inr ⟨?_, _, rfl⟩
    rintro rfl
    cases hc
  · exact .ok ()

theorem gives_checkRam (used : ℕ) : Gives budget (budget.checkRam used) () := by
  unfold ExecBudget.checkRam
  split
  · rename_i limit hlimit
    split
    · refine .inr ⟨?_, _, rfl⟩
      rintro rfl
      cases hlimit
    · exact .ok ()
  · exact .ok ()

theorem gives_eachRow {body : α → Record → Result α} {g : α → Record → α}
    (h : ∀ a rec, Gives budget (body a rec) (g a rec)) (looked i : ℕ) (rows : List Row) (a : α) :
    Gives budget (eachRow budget looked body i rows a) (rows.foldl (fun a r => g a r.2) a) := by
  induction rows generalizing i a with
  | nil => exact .ok a
  | cons row rows ih =>
    have hrow := (h a row.2).bind (ih (i + 1) (g a row.2))
    rw [eachRow]
    split
    · exact (gives_checkCancelled _).bind hrow
    · exact hrow

/-! ## Accumulated rows -/

namespace JoinAccumulator

def add (acc : JoinAccumulator) (recs : List Record) : JoinAccumulator :=
  ⟨acc.used + (recs.map Record.approxSize).sum, acc.out ++ recs⟩

@[simp] theorem add_nil (acc : JoinAccumulator) : acc.add [] = acc := by
  simp [add]

theorem add_add (acc : JoinAccumulator) (xs ys : List Record) :
    (acc.add xs).add ys = acc.add (xs ++ ys) := by
  simp [add, Nat.add_assoc]

theorem gives_push (acc : JoinAccumulator) (rec : Record) :
    Gives budget (acc.push budget rec) (acc.add [rec]) := by
  unfold push
  apply (gives_checkRam _).bind
  rw [add, List.map_singleton, List.sum_singleton]
  exact .ok _

theorem foldl_add (f : Record → List Record) (rows : List Row) (acc : JoinAccumulator) :
    rows.foldl (fun acc r => acc.add (f r.2)) acc = acc.add (rows.flatMap fun r => f r.2) := by
  induction rows generalizing acc with
  | nil => rw [List.flatMap_nil, add_nil, List.foldl_nil]
  | cons row rows ih => rw [List.foldl_cons, ih, add_add, List.flatMap_cons]

end JoinAccumulator

namespace Join

/-! ## The nested loop -/

def merge (j : Join) (left right : Record) : Record :=
  mergeJoinedFields j.left left (some (j.right, right))

def unmatched (j : Join) (left : Record) : List Record :=
  if j.kind = .left then [mergeJoinedFields j.left left none] else []

/-- The rows one left row joins into, with the right rows that match it. -/
def joined (j : Join) (left : Record) (found : List Record) : List Record :=
  if found = [] then j.unmatched left else found.map (j.merge left)

/-- Both keys are there, neither is null, and they are equal. -/
def Matches (j : Join) (left right : Record) : Prop :=
  ∃ a b, key j.on.1 left = some a ∧ key j.on.2 right = some b ∧ a.1.Eqv b.1

instance matchesDecidable (j : Join) (left right : Record) : Decidable (j.Matches left right) :=
  match ha : key j.on.1 left, hb : key j.on.2 right with
  | some a, some b => decidable_of_iff (a.1.Eqv b.1)
      ⟨fun h => ⟨a, b, ha, hb, h⟩, fun ⟨_, _, ha', hb', h⟩ => by
        rw [ha] at ha'
        rw [hb] at hb'
        cases ha'
        cases hb'
        exact h⟩
  | none, _ => isFalse fun ⟨_, _, ha', _⟩ => by rw [ha] at ha'; cases ha'
  | _, none => isFalse fun ⟨_, _, _, hb', _⟩ => by rw [hb] at hb'; cases hb'

/-- Every left row beside every right row. -/
def nestedLoop (j : Join) (lefts rights : List Row) : List Record :=
  lefts.flatMap fun l => j.joined l.2 ((rights.filter fun r => j.Matches l.2 r.2).map (·.2))

variable (j : Join)

theorem gives_owed (left : Record) (acc : JoinAccumulator) :
    Gives budget (j.owed budget left acc) (acc.add (j.unmatched left)) := by
  unfold owed unmatched
  split
  · exact acc.gives_push _
  · rw [JoinAccumulator.add_nil]
    exact .ok acc

/-! ## Through the table -/

theorem gives_pushMatches (left : Record) (rights : List Record) (acc : JoinAccumulator) :
    Gives budget (j.pushMatches budget left rights acc) (acc.add (rights.map (j.merge left))) := by
  induction rights generalizing acc with
  | nil =>
    rw [List.map_nil, JoinAccumulator.add_nil]
    exact .ok acc
  | cons right rights ih =>
    have hrest := ih (acc.add [j.merge left right])
    rw [JoinAccumulator.add_add] at hrest
    exact (acc.gives_push _).bind hrest

/-- What the table gives for a left row. -/
def found (hash : Bytes → UInt64) (table : List (OrdValue × List Record)) (left : Record) :
    List Record :=
  ((key j.on.1 left).bind fun k => KeyTable.find (sameKey hash) k table).getD []

variable (hash : Bytes → UInt64)

theorem gives_probeTable (table : List (OrdValue × List Record)) (acc : JoinAccumulator)
    (left : Record) : Gives budget (j.probeTable hash budget table acc left)
      (acc.add (j.joined left (j.found hash table left))) := by
  unfold probeTable found
  split
  · rename_i right rights hfound
    rw [hfound, Option.getD_some, joined, if_neg (List.cons_ne_nil _ _)]
    exact j.gives_pushMatches left _ acc
  · rename_i hne
    have hnil : ((key j.on.1 left).bind
        fun k => KeyTable.find (sameKey hash) k table).getD [] = [] := by
      cases hf : (key j.on.1 left).bind fun k => KeyTable.find (sameKey hash) k table with
      | none => rfl
      | some found =>
        cases found with
        | nil => rfl
        | cons right rights => exact absurd hf (hne right rights)
    rw [hnil, joined, if_pos rfl]
    exact j.gives_owed left acc

/-- The right rows with a key, each beside it. -/
def keyed (rights : List Row) : List (OrdValue × Record) :=
  rights.filterMap fun r => (key j.on.2 r.2).map fun k => (k, r.2)

def filed (t : List (OrdValue × List Record) × ℕ) (right : Record) :
    List (OrdValue × List Record) × ℕ :=
  match key j.on.2 right with
  | some k => (KeyTable.file (sameKey hash) k right t.1, t.2 + hashEntryBytes)
  | none => t

theorem gives_fileRow (t : List (OrdValue × List Record) × ℕ) (right : Record) :
    Gives budget (j.fileRow hash budget t right) (j.filed hash t right) := by
  rw [fileRow, filed]
  cases key j.on.2 right with
  | none => exact .ok t
  | some k => exact (gives_checkRam _).bind (.ok _)

theorem foldl_filed (rights : List Row) (t : List (OrdValue × List Record) × ℕ) :
    (rights.foldl (fun t r => j.filed hash t r.2) t).1 =
      (j.keyed rights).foldl (fun t r => KeyTable.file (sameKey hash) r.1 r.2 t) t.1 := by
  induction rights generalizing t with
  | nil => rfl
  | cons right rights ih =>
    have hkeyed : j.keyed (right :: rights) =
        ((key j.on.2 right.2).map fun k => (k, right.2)).toList ++ j.keyed rights := by
      rw [keyed, List.filterMap_cons]
      cases key j.on.2 right.2 <;> rfl
    rw [List.foldl_cons, ih, hkeyed, List.foldl_append, filed]
    cases key j.on.2 right.2 <;> rfl

/-- A hash join joins each left row with what the table of the right side finds. -/
theorem gives_hashJoin (lefts rights : List Row) :
    Gives budget (j.hashJoin hash lefts rights budget) (lefts.flatMap fun l =>
      j.joined l.2 (j.found hash (KeyTable.build (sameKey hash) (j.keyed rights)) l.2)) := by
  rw [hashJoin]
  apply (gives_eachRow (fun t r => j.gives_fileRow hash t r) 0 0 rights ([], 0)).bind
  dsimp only
  rw [foldl_filed]
  apply (gives_eachRow (fun acc l => j.gives_probeTable hash _ acc l) rights.length 0 lefts .new).bind
  have hfold := JoinAccumulator.foldl_add (fun l =>
    j.joined l (j.found hash (KeyTable.build (sameKey hash) (j.keyed rights)) l)) lefts .new
  exact .inl (congrArg (fun acc : JoinAccumulator => (Except.ok acc.out : Result _)) hfold)

/-! ## Interchangeable keys -/

/-- Equal keys feed the hasher alike, and are equal to the same keys. -/
def Interchangeable (S : OrdValue → Prop) : Prop :=
  ∀ a b, S a → S b → a.1.Eqv b.1 →
    hash a.1.hashBytes = hash b.1.hashBytes ∧ ∀ c, S c → b.1.Eqv c.1 → a.1.Eqv c.1

theorem eqv_symm {a b : Value} (h : a.Eqv b) : b.Eqv a := by
  unfold Value.Eqv at h ⊢
  rw [Value.cmp_swap, h]
  rfl

theorem sameKey_iff (a b : OrdValue) :
    sameKey hash a b = true ↔ hash a.1.hashBytes = hash b.1.hashBytes ∧ a.1.Eqv b.1 := by
  rw [sameKey, decide_eq_true_iff]

variable {hash} {S : OrdValue → Prop}

theorem Interchangeable.classes (h : Interchangeable hash S) :
    KeyTable.Classes (sameKey hash) S where
  refl a _ := (sameKey_iff hash a a).mpr ⟨rfl, Value.Eqv.refl _⟩
  symm a b _ _ hs := by
    rw [sameKey_iff] at hs ⊢
    exact ⟨hs.1.symm, eqv_symm hs.2⟩
  trans a b c ha hb hc hab hbc := by
    rw [sameKey_iff] at hab hbc ⊢
    exact ⟨hab.1.trans hbc.1, (h a b ha hb hab.2).2 c hc hbc.2⟩

theorem Interchangeable.sameKey_eq (h : Interchangeable hash S) {a b : OrdValue} (ha : S a)
    (hb : S b) : sameKey hash a b = true ↔ b.1.Eqv a.1 := by
  rw [sameKey_iff]
  exact ⟨fun hs => eqv_symm hs.2, fun hs => ⟨(h a b ha hb (eqv_symm hs)).1, eqv_symm hs⟩⟩

/-- The keys of the join, none of them null, are in the set. -/
structure KeysIn (j : Join) (S : OrdValue → Prop) (lefts rights : List Row) : Prop where
  left : ∀ l ∈ lefts, ∀ k, key j.on.1 l.2 = some k → S k
  right : ∀ r ∈ rights, ∀ k, key j.on.2 r.2 = some k → S k

theorem matches_iff {left right : Record} {k : OrdValue} (hk : key j.on.1 left = some k) :
    j.Matches left right ↔ ∃ b, key j.on.2 right = some b ∧ k.1.Eqv b.1 := by
  constructor
  · rintro ⟨a, b, ha, hb, h⟩
    rw [hk] at ha
    cases ha
    exact ⟨b, hb, h⟩
  · rintro ⟨b, hb, h⟩
    exact ⟨k, b, hk, hb, h⟩

theorem not_matches {left right : Record} (hk : key j.on.1 left = none) :
    ¬ j.Matches left right := by
  rintro ⟨a, -, ha, -, -⟩
  rw [hk] at ha
  cases ha

/-- The rows filed with a key are those whose key is equal to it. -/
theorem keyed_filter (h : Interchangeable hash S) {left : Record} {k : OrdValue}
    (hk : key j.on.1 left = some k) (hS : S k) {rights : List Row}
    (hrights : ∀ r ∈ rights, ∀ b, key j.on.2 r.2 = some b → S b) :
    ((j.keyed rights).filter fun r => sameKey hash r.1 k).map (·.2) =
      (rights.filter fun r => j.Matches left r.2).map (·.2) := by
  induction rights with
  | nil => rfl
  | cons r rights ih =>
    have hrest := ih fun r' hr' => hrights r' (List.mem_cons_of_mem _ hr')
    rw [keyed] at hrest ⊢
    rw [List.filterMap_cons]
    cases hb : key j.on.2 r.2 with
    | none =>
      have hno : ¬ j.Matches left r.2 := by
        rw [j.matches_iff hk, hb]
        rintro ⟨b, hb', -⟩
        cases hb'
      simpa [hno] using hrest
    | some b =>
      have hsame := h.sameKey_eq (hrights r List.mem_cons_self b hb) hS
      have hmatch : j.Matches left r.2 ↔ k.1.Eqv b.1 := by
        rw [j.matches_iff hk, hb]
        exact ⟨fun ⟨_, hb', he⟩ => Option.some.inj hb' ▸ he, fun he => ⟨b, rfl, he⟩⟩
      by_cases he : k.1.Eqv b.1
      · simpa [hsame.mpr he, hmatch.mpr he] using hrest
      · have hns : sameKey hash b k = false := Bool.eq_false_iff.mpr fun hs => he (hsame.mp hs)
        simpa [hns, mt hmatch.mp he] using hrest

theorem found_eq (h : Interchangeable hash S) {left : Record}
    (hleft : ∀ k, key j.on.1 left = some k → S k) {rights : List Row}
    (hrights : ∀ r ∈ rights, ∀ b, key j.on.2 r.2 = some b → S b) :
    j.found hash (KeyTable.build (sameKey hash) (j.keyed rights)) left =
      (rights.filter fun r => j.Matches left r.2).map (·.2) := by
  rw [found]
  cases hk : key j.on.1 left with
  | none =>
    have hnone : (rights.filter fun r => j.Matches left r.2) = [] :=
      List.filter_eq_nil_iff.mpr fun r _ => by simpa using j.not_matches hk
    rw [hnone]
    rfl
  | some k =>
    have hkeys : ∀ r ∈ j.keyed rights, S r.1 := by
      intro r hr
      obtain ⟨row, hrow, hr⟩ := List.mem_filterMap.mp hr
      obtain ⟨b, hb, rfl⟩ := Option.map_eq_some_iff.mp hr
      exact hrights row hrow b hb
    have hfind := KeyTable.find_build h.classes hkeys (hleft k hk)
    rw [← j.keyed_filter h hk (hleft k hk) hrights, ← hfind]
    rfl

/-- Over interchangeable keys a hash join is the nested loop. -/
theorem hashJoin_nested (h : Interchangeable hash S) {lefts rights : List Row}
    (hin : j.KeysIn S lefts rights) :
    Gives budget (j.hashJoin hash lefts rights budget) (j.nestedLoop lefts rights) := by
  have hgives : Gives budget _ _ := j.gives_hashJoin hash lefts rights
  have heq : j.nestedLoop lefts rights = lefts.flatMap fun l =>
      j.joined l.2 (j.found hash (KeyTable.build (sameKey hash) (j.keyed rights)) l.2) := by
    rw [nestedLoop, List.flatMap_congr]
    intro l hl
    rw [j.found_eq h (hin.left l hl) hin.right]
  rwa [heq]

/-! ## Through the index -/

/-- An index gives exactly the ids of the records whose key equals the one asked for. -/
def Exact (j : Join) (src : Source) (records : OrdMap RecordId Record) : Prop :=
  ∀ k : OrdValue, ∃ ids, src.indexLookup j.right j.on.2 k.1 = .ok (some ids) ∧
    ∀ id, id ∈ ids ↔ ∃ rec b, records.get id = some rec ∧ key j.on.2 rec = some b ∧ b.1.Eqv k.1

/-- The source holds these records, and the index on the join field, if there is one, is exact. -/
structure Answers (j : Join) (src : Source) (records : OrdMap RecordId Record) : Prop where
  fetch : ∀ id, src.fetch j.right id = .ok (records.get id)
  lookup : (∀ k : OrdValue, src.indexLookup j.right j.on.2 k.1 = .ok none) ∨ j.Exact src records

theorem gives_fetchMatches {src : Source} {records : OrdMap RecordId Record}
    (hfetch : ∀ id, src.fetch j.right id = .ok (records.get id)) (left : Record)
    (ids : List RecordId) (acc : JoinAccumulator) (matched : Bool) :
    Gives budget (j.fetchMatches src budget left ids (acc, matched))
      (acc.add ((ids.filterMap records.get).map (j.merge left)),
        matched || !(ids.filterMap records.get).isEmpty) := by
  induction ids generalizing acc matched with
  | nil =>
    rw [List.filterMap_nil, List.map_nil, JoinAccumulator.add_nil, List.isEmpty_nil, Bool.not_true,
      Bool.or_false]
    exact .ok _
  | cons id ids ih =>
    rw [fetchMatches, hfetch, ok_bind, List.filterMap_cons]
    cases records.get id with
    | none => exact ih acc matched
    | some right =>
      have hrest := ih (acc.add [j.merge left right]) true
      rw [JoinAccumulator.add_add, Bool.true_or] at hrest
      dsimp only
      rw [List.map_cons, List.isEmpty_cons, Bool.not_false, Bool.or_true]
      exact (acc.gives_push _).bind hrest

theorem not_null_key {field : String} {rec : Record} {k : OrdValue} (h : key field rec = some k) :
    k.1.isNull = false := by
  obtain ⟨-, hn⟩ := Option.filter_eq_some_iff.mp h
  simpa using hn

theorem null_of_eqv {a b : Value} (h : a.Eqv b) (hb : b.isNull = true) : a.isNull = true := by
  have hrank := Value.rank_eq_of_cmp h
  cases b <;> cases hb
  cases a <;> first | rfl | cases hrank

theorem gives_probeRow {src : Source} {records : OrdMap RecordId Record}
    (hfetch : ∀ id, src.fetch j.right id = .ok (records.get id)) (hexact : j.Exact src records)
    (acc : JoinAccumulator) (left : Record) :
    Gives budget (j.probeRow src budget acc left) (acc.add (j.joined left
      ((records.entries.filter fun r => j.Matches left r.2).map (·.2)))) := by
  rw [probeRow]
  cases hv : left.get j.on.1 with
  | none =>
    have hk : key j.on.1 left = none := by rw [key, hv, Option.filter_none]
    have hnone : (records.entries.filter fun r => j.Matches left r.2) = [] :=
      List.filter_eq_nil_iff.mpr fun r _ => by simpa using j.not_matches hk
    rw [hnone, List.map_nil, joined, if_pos rfl]
    exact j.gives_owed left acc
  | some v =>
    obtain ⟨ids, hids, hmem⟩ := hexact v
    have hfound : (ascend ids).filterMap records.get =
        (records.entries.filter fun r => j.Matches left r.2).map (·.2) := by
      have hmatch : ∀ r ∈ records.entries, (r.1 ∈ ids ↔ j.Matches left r.2) := by
        intro r hr
        have hget := (OrdMap.mem_entries records r.1 r.2).mp hr
        rw [hmem]
        constructor
        · rintro ⟨rec, b, hrec, hb, he⟩
          rw [hget] at hrec
          cases hrec
          refine ⟨v, b, ?_, hb, eqv_symm he⟩
          rw [key, hv, Option.filter_some, if_pos]
          simpa using fun hnull => Bool.eq_false_iff.mp (not_null_key hb) (null_of_eqv he hnull)
        · rintro ⟨a, b, ha, hb, he⟩
          obtain ⟨hav, -⟩ := Option.filter_eq_some_iff.mp ha
          rw [hv] at hav
          cases hav
          exact ⟨r.2, b, hget, hb, eqv_symm he⟩
      have hrows := congrArg (List.map Prod.snd) (fetched_eq records ids)
      rw [List.map_filterMap] at hrows
      have hfilter : (records.entries.filter fun r => r.1 ∈ ids) =
          records.entries.filter fun r => j.Matches left r.2 :=
        List.filter_congr fun r hr => by simp [hmatch r hr]
      rw [← hfilter]
      refine Eq.trans ?_ hrows
      congr 1
      funext id
      cases records.get id <;> rfl
    have hfetched : Gives budget _ _ := j.gives_fetchMatches hfetch left (ascend ids) acc false
    dsimp only
    rw [hids, ok_bind]
    apply hfetched.bind
    dsimp only
    rw [hfound, Bool.false_or, joined]
    cases hm : (records.entries.filter fun r => j.Matches left r.2).map (·.2) with
    | nil =>
      rw [if_pos rfl, List.map_nil, JoinAccumulator.add_nil]
      exact j.gives_owed left acc
    | cons right rights =>
      rw [if_neg (List.cons_ne_nil _ _)]
      exact .ok _

/-- Through the index the join is the nested loop, or there is no index to probe. -/
theorem gives_indexedNestedLoop {src : Source} {records : OrdMap RecordId Record}
    (h : j.Answers src records) (lefts : List Row) :
    Gives budget (j.indexedNestedLoop lefts src budget) none ∨
      Gives budget (j.indexedNestedLoop lefts src budget)
        (some (j.nestedLoop lefts records.entries)) := by
  rw [indexedNestedLoop]
  cases lefts.findSome? fun r => r.2.get j.on.1 with
  | none => exact .inl (.ok none)
  | some v =>
    dsimp only
    rcases h.lookup with hnone | hexact
    · rw [hnone]
      exact .inl (.ok none)
    · obtain ⟨ids, hids, -⟩ := hexact v
      rw [hids]
      have hfold := JoinAccumulator.foldl_add (fun l =>
        j.joined l ((records.entries.filter fun r => j.Matches l r.2).map (·.2))) lefts .new
      apply Or.inr
      apply (gives_eachRow (fun acc l => j.gives_probeRow h.fetch hexact acc l) 0 0 lefts .new).bind
      rw [hfold]
      exact .ok _

theorem indexedNestedLoop_nested {src : Source} {records : OrdMap RecordId Record}
    (h : j.Answers src records) {lefts : List Row} {out : List Record}
    (hout : j.indexedNestedLoop lefts src budget = .ok (some out)) :
    out = j.nestedLoop lefts records.entries := by
  rcases j.gives_indexedNestedLoop h lefts with hg | hg
  · cases hg.eq_of_ok hout
  · exact Option.some.inj (hg.eq_of_ok hout)

/-! ## The operator -/

theorem gives_chargeRows (used : ℕ) (rows : List Row) :
    Gives budget (chargeRows budget used rows) () := by
  induction rows generalizing used with
  | nil => exact .ok ()
  | cons row rows ih => exact (gives_checkRam _).bind (ih _)

theorem gives_collectRows {src : QuerySource} {op : PhysicalOp} {rows : List Row}
    (h : execute src ⟨op, ""⟩ = .ok rows) : Gives budget (collectRows src budget op) rows := by
  rw [collectRows, h]
  exact (gives_chargeRows 0 rows).bind (.ok rows)

/-- A join with a bare scan gives the nested loop whichever algorithm runs. -/
theorem gives_runJoin (h : Interchangeable hash S) {src : QuerySource} {left : PhysicalOp}
    {lefts : List Row} (hleft : execute src ⟨left, ""⟩ = .ok lefts)
    {records : OrdMap RecordId Record} (hright : src.store.get j.right = some records)
    (hne : j.left ≠ j.right) (hin : j.KeysIn S lefts records.entries)
    (hsrc : j.Answers src.probed records) :
    Gives budget (runJoin src hash budget j left (.heapScan j.right))
      (batchFromRows (j.nestedLoop lefts records.entries)) := by
  have hscan : execute src ⟨.heapScan j.right, ""⟩ = .ok records.entries := scanBatches_rows hright
  rw [runJoin, if_neg hne]
  apply (gives_checkCancelled 0).bind
  apply (gives_collectRows hleft).bind
  dsimp only [PhysicalOp.heapScanned]
  rcases j.gives_indexedNestedLoop hsrc lefts with hg | hg
  · apply hg.bind
    exact ((gives_collectRows hscan).bind ((j.hashJoin_nested h hin).bind (.ok _)))
  · exact hg.bind (.ok _)

/-! ## The fields of a joined row -/

/-- No field of the one side has the name of a field of the other once both are prefixed. -/
def Apart (j : Join) (left right : Record) : Prop :=
  ∀ a ∈ left.keys, ∀ b ∈ right.keys, j.left ++ "." ++ a ≠ j.right ++ "." ++ b

/-- A row holds the fields of both sides, each once, and nothing else. -/
def HoldsBoth (j : Join) (left right rec : Record) : Prop :=
  rec.entries.Perm (prefixed j.left left ++ prefixed j.right right)

theorem names_prefixed (collection : String) (rec : Record) :
    (prefixed collection rec).map Prod.fst = rec.keys.map fun a => collection ++ "." ++ a := by
  rw [prefixed, OrdMap.keys, List.map_map, List.map_map]
  rfl

theorem nodup_prefixed (collection : String) (rec : Record) :
    ((prefixed collection rec).map Prod.fst).Nodup := by
  rw [names_prefixed]
  exact rec.keys_nodup.map fun a b h => by simpa using h

theorem unmatched_holds (left : Record) :
    (mergeJoinedFields j.left left none).entries.Perm (prefixed j.left left) :=
  OrdMap.insertAll_perm ∅ (nodup_prefixed j.left left)

theorem merge_holds_iff (left right : Record) :
    j.HoldsBoth left right (j.merge left right) ↔ j.Apart left right := by
  have hmerge : j.merge left right =
      (∅ : Record).insertAll (prefixed j.left left ++ prefixed j.right right) :=
    (OrdMap.insertAll_append _ _ _).symm
  have hperm := OrdMap.insertAll_perm_iff (∅ : Record)
    (prefixed j.left left ++ prefixed j.right right)
  rw [OrdMap.entries_empty, List.nil_append, List.map_append, List.nodup_append] at hperm
  rw [HoldsBoth, hmerge, hperm, names_prefixed, names_prefixed]
  constructor
  · rintro ⟨-, -, h⟩ a ha b hb
    exact h _ (List.mem_map_of_mem ha) _ (List.mem_map_of_mem hb)
  · intro h
    refine ⟨names_prefixed j.left left ▸ nodup_prefixed j.left left,
      names_prefixed j.right right ▸ nodup_prefixed j.right right, ?_⟩
    intro x hx y hy
    obtain ⟨a, ha, rfl⟩ := List.mem_map.mp hx
    obtain ⟨b, hb, rfl⟩ := List.mem_map.mp hy
    exact h a ha b hb

/-! ## When the algorithms agree -/

/-- Whatever either algorithm gives is the nested loop, and no budget keeps the
hash join from it. -/
structure Agree (j : Join) (hash : Bytes → UInt64) (src : Source) (budget : ExecBudget)
    (lefts : List Row) (records : OrdMap RecordId Record) : Prop where
  indexed : ∀ out, j.indexedNestedLoop lefts src budget = .ok (some out) →
    out = j.nestedLoop lefts records.entries
  hashed : ∀ out, j.hashJoin hash lefts records.entries budget = .ok out →
    out = j.nestedLoop lefts records.entries
  answered : j.hashJoin hash lefts records.entries .unbounded =
    .ok (j.nestedLoop lefts records.entries)

theorem agree (h : Interchangeable hash S) {lefts : List Row} {records : OrdMap RecordId Record}
    (hin : j.KeysIn S lefts records.entries) {src : Source} (hsrc : j.Answers src records) :
    j.Agree hash src budget lefts records where
  indexed _ hout := j.indexedNestedLoop_nested hsrc hout
  hashed _ hout := (j.hashJoin_nested h hin).eq_of_ok hout
  answered := (j.hashJoin_nested h hin).unbounded

/-- Two collections joined on a field of one name. -/
def onKey : Join := ⟨"orders", "users", .inner, ("key", "key")⟩

def keyRow (k : OrdValue) : Record := (∅ : Record).set "key" k

theorem key_keyRow {k : OrdValue} (h : k.1.isNull = false) : key "key" (keyRow k) = some k := by
  rw [key, keyRow, Record.set, OrdMap.get_insert_self, Option.filter_some, if_pos (by rw [h]; rfl)]

theorem eq_of_null {a b : OrdValue} (h : a.1.Eqv b.1) (hb : b.1.isNull = true) : a = b := by
  have ha := null_of_eqv h hb
  obtain ⟨a, _⟩ := a
  obtain ⟨b, _⟩ := b
  cases a <;> cases ha
  cases b <;> cases hb
  rfl

def twoRows (b c : OrdValue) : OrdMap RecordId Record :=
  ((∅ : OrdMap RecordId Record).insert 0 (keyRow b)).insert 1 (keyRow c)

theorem entries_twoRows (b c : OrdValue) :
    (twoRows b c).entries = [(0, keyRow b), (1, keyRow c)] := rfl

/-- A source without an index. -/
def unindexed (records : OrdMap RecordId Record) : Source :=
  ⟨fun _ id => .ok (records.get id), fun _ _ _ => .ok none⟩

theorem unindexed_answers (j : Join) (records : OrdMap RecordId Record) :
    j.Answers (unindexed records) records :=
  ⟨fun _ => rfl, .inl fun _ => rfl⟩

theorem length_joined (left : Record) (found : List Record) :
    (onKey.joined left found).length = found.length := by
  rw [joined]
  split
  · rename_i h
    rw [h]
    rfl
  · exact List.length_map _

theorem matches_keyRow {a b : OrdValue} (ha : a.1.isNull = false) (hb : b.1.isNull = false) :
    onKey.Matches (keyRow a) (keyRow b) ↔ a.1.Eqv b.1 := by
  have hkey : key onKey.on.2 (keyRow b) = some b := key_keyRow hb
  rw [onKey.matches_iff (key_keyRow ha), hkey]
  exact ⟨fun ⟨_, h, he⟩ => Option.some.inj h ▸ he, fun he => ⟨b, rfl, he⟩⟩

/-- Where the algorithms agree on one left row and two right rows, the table finds
as many rows as are equal. -/
theorem length_found {a b c : OrdValue} (ha : a.1.isNull = false) (hb : b.1.isNull = false)
    (hc : c.1.isNull = false) {src : Source}
    (h : onKey.Agree hash src budget [(0, keyRow a)] (twoRows b c)) :
    ((KeyTable.find (sameKey hash) a (KeyTable.build (sameKey hash)
      [(b, keyRow b), (c, keyRow c)])).getD []).length = [b, c].countP fun k => a.1.Eqv k.1 := by
  have hgives := (onKey.gives_hashJoin hash [(0, keyRow a)] (twoRows b c).entries).unbounded
  have hkeyed : onKey.keyed (twoRows b c).entries = [(b, keyRow b), (c, keyRow c)] := by
    have hkb : key onKey.on.2 (keyRow b) = some b := key_keyRow hb
    have hkc : key onKey.on.2 (keyRow c) = some c := key_keyRow hc
    rw [entries_twoRows, keyed, List.filterMap_cons, List.filterMap_cons, hkb, hkc]
    rfl
  rw [h.answered, nestedLoop, hkeyed, entries_twoRows] at hgives
  have hlength := congrArg List.length (Except.ok.inj hgives)
  simp only [List.flatMap_cons, List.flatMap_nil, List.append_nil, length_joined, found,
    List.length_map, ← List.countP_eq_length_filter] at hlength
  rw [show key onKey.on.1 (keyRow a) = some a from key_keyRow ha, Option.bind_some] at hlength
  rw [← hlength]
  simp only [List.countP_cons, List.countP_nil, matches_keyRow ha hb, matches_keyRow ha hc]

/-- The algorithms agree on one left row and two right rows with keys of the set. -/
def AgreeOnTwo (hash : Bytes → UInt64) (S : OrdValue → Prop) : Prop :=
  ∀ a b c : OrdValue, S a → S b → S c →
    onKey.Agree hash (unindexed (twoRows b c)) .unbounded [(0, keyRow a)] (twoRows b c)

/-- An equal key that the table did not find would be missing from the answer. -/
theorem AgreeOnTwo.hash_eq (h : AgreeOnTwo hash S) {a b : OrdValue} (ha : S a) (hb : S b)
    (hna : a.1.isNull = false) (hnb : b.1.isNull = false) (he : a.1.Eqv b.1) :
    hash a.1.hashBytes = hash b.1.hashBytes := by
  have hlength := length_found hna hnb hnb (h a b b ha hb hb)
  have hbb : sameKey hash b b = true := (sameKey_iff hash b b).mpr ⟨rfl, Value.Eqv.refl _⟩
  by_contra hne
  have hba : sameKey hash b a = false :=
    Bool.eq_false_iff.mpr fun hs => hne ((sameKey_iff hash b a).mp hs).1.symm
  simp [KeyTable.build, KeyTable.file, KeyTable.find, hbb, hba, he] at hlength

/-- A row filed under a key equal to its own is found by every key equal to that. -/
theorem AgreeOnTwo.eqv_trans (h : AgreeOnTwo hash S) {a b c : OrdValue} (ha : S a) (hb : S b)
    (hc : S c) (hna : a.1.isNull = false) (hnb : b.1.isNull = false) (hnc : c.1.isNull = false)
    (hab : a.1.Eqv b.1) (hbc : b.1.Eqv c.1) : a.1.Eqv c.1 := by
  have hlength := length_found hna hnb hnc (h a b c ha hb hc)
  have hsame : sameKey hash b c = true :=
    (sameKey_iff hash b c).mpr ⟨h.hash_eq hb hc hnb hnc hbc, hbc⟩
  have hfound : sameKey hash b a = true :=
    (sameKey_iff hash b a).mpr ⟨(h.hash_eq ha hb hna hnb hab).symm, eqv_symm hab⟩
  by_contra hne
  simp [KeyTable.build, KeyTable.file, KeyTable.find, hsame, hfound, hab, hne] at hlength

theorem AgreeOnTwo.interchangeable (h : AgreeOnTwo hash S) : Interchangeable hash S := by
  intro a b ha hb hab
  cases hnb : b.1.isNull with
  | true =>
    rw [eq_of_null hab hnb]
    exact ⟨rfl, fun c _ hbc => hbc⟩
  | false =>
    have hna : a.1.isNull = false :=
      Bool.eq_false_iff.mpr fun hna => Bool.eq_false_iff.mp hnb (null_of_eqv (eqv_symm hab) hna)
    refine ⟨h.hash_eq ha hb hna hnb hab, fun c hc hbc => ?_⟩
    have hnc : c.1.isNull = false :=
      Bool.eq_false_iff.mpr fun hnc => Bool.eq_false_iff.mp hnb (null_of_eqv hbc hnc)
    exact h.eqv_trans ha hb hc hna hnb hnc hab hbc

theorem keysIn_two {a b c : OrdValue} (ha : S a) (hb : S b) (hc : S c) :
    onKey.KeysIn S [(0, keyRow a)] (twoRows b c).entries := by
  have hkey : ∀ {k k' : OrdValue}, key "key" (keyRow k) = some k' → k = k' := by
    intro k k' h
    rw [key, keyRow, Record.set, OrdMap.get_insert_self] at h
    exact Option.some.inj (Option.filter_eq_some_iff.mp h).1
  constructor
  · intro l hl k hk
    rw [List.mem_singleton.mp hl] at hk
    exact hkey hk ▸ ha
  · intro r hr k hk
    rw [entries_twoRows] at hr
    rcases List.mem_cons.mp hr with rfl | hr
    · exact hkey hk ▸ hb
    · rw [List.mem_singleton.mp hr] at hk
      exact hkey hk ▸ hc

/-- The algorithms agree on every join whose keys are in a set exactly where the keys of
the set are interchangeable, and a joined row holds every field of both sides exactly
where no two of them have one name. -/
theorem joins_agree_iff (hash : Bytes → UInt64) (S : OrdValue → Prop) :
    ((∀ (j : Join) (lefts : List Row) (records : OrdMap RecordId Record) (src : Source)
      (budget : ExecBudget), j.left ≠ j.right → j.KeysIn S lefts records.entries →
        j.Answers src records → j.Agree hash src budget lefts records) ↔ Interchangeable hash S) ∧
    ∀ (j : Join) (left right : Record), j.HoldsBoth left right (j.merge left right) ↔
      j.Apart left right := by
  refine ⟨⟨fun h => ?_, fun h j lefts records src budget _ hin hsrc => j.agree h hin hsrc⟩,
    fun j left right => j.merge_holds_iff left right⟩
  apply AgreeOnTwo.interchangeable
  intro a b c ha hb hc
  exact h onKey _ _ _ _ (by decide) (keysIn_two ha hb hc) (unindexed_answers _ _)

/-! ## Where they part -/

def number (n : Int64) : OrdValue := ⟨.i64 n, trivial⟩

/-- `2^53` as a float, which two neighbouring integers round to. -/
def rounded : OrdValue := ⟨.f64 (F64.ofInt 9007199254740992), trivial⟩

/-- A source with an index over two rows. -/
def indexed (b c : OrdValue) : Source where
  fetch _ id := .ok ((twoRows b c).get id)
  indexLookup _ _ k := .ok (some (((twoRows b c).entries.filter fun r =>
    (key "key" r.2).any fun v => v.1.Eqv k).map (·.1)))

theorem indexed_answers (b c : OrdValue) : onKey.Answers (indexed b c) (twoRows b c) := by
  refine ⟨fun _ => rfl, .inr fun k => ⟨_, rfl, fun id => ?_⟩⟩
  simp only [List.mem_map, List.mem_filter, Option.any_eq_true, decide_eq_true_eq]
  constructor
  · rintro ⟨r, ⟨hr, v, hv, he⟩, rfl⟩
    exact ⟨r.2, v, (OrdMap.mem_entries _ _ _).mp hr, hv, he⟩
  · rintro ⟨rec, v, hrec, hv, he⟩
    exact ⟨(id, rec), ⟨(OrdMap.mem_entries _ _ _).mpr hrec, v, hv, he⟩, rfl⟩

/-- The float keeps the table from telling two integers apart that the index tells
apart, and two fields of a joined row have one name. -/
theorem joins_part :
    (¬ ∀ (j : Join) (hash : Bytes → UInt64) (lefts : List Row)
      (records : OrdMap RecordId Record) (src : Source), j.left ≠ j.right →
        j.Answers src records → ∀ out,
          j.indexedNestedLoop lefts src .unbounded = .ok (some out) →
          j.hashJoin hash lefts records.entries .unbounded = .ok out) ∧
    ¬ ∀ (j : Join) (left right : Record), j.left ≠ j.right →
      j.HoldsBoth left right (j.merge left right) := by
  constructor
  · intro h
    have hcase := h onKey (fun _ => 0) [(0, keyRow (number 9007199254740992))] _ _ (by decide)
      (indexed_answers rounded (number 9007199254740993))
    have hindexed : (onKey.indexedNestedLoop [(0, keyRow (number 9007199254740992))]
        (indexed rounded (number 9007199254740993)) .unbounded).map (·.map List.length) =
        .ok (some 1) := by decide
    have hhashed : (onKey.hashJoin (fun _ => 0) [(0, keyRow (number 9007199254740992))]
        (twoRows rounded (number 9007199254740993)).entries .unbounded).map List.length =
        .ok 2 := by decide
    cases hr : onKey.indexedNestedLoop [(0, keyRow (number 9007199254740992))]
        (indexed rounded (number 9007199254740993)) .unbounded with
    | error e =>
      rw [hr] at hindexed
      cases hindexed
    | ok found =>
      cases found with
      | none =>
        rw [hr] at hindexed
        cases hindexed
      | some out =>
        rw [hr] at hindexed
        rw [hcase out hr] at hhashed
        have hone : out.length = 1 := Option.some.inj (Except.ok.inj hindexed)
        have htwo : out.length = 2 := Except.ok.inj hhashed
        rw [hone] at htwo
        cases htwo
  · intro h
    have hcase := (h ⟨"a", "a.b", .inner, ("k", "k")⟩ ((∅ : Record).set "b.c" (number 1))
      ((∅ : Record).set "c" (number 2)) (by decide)).length_eq
    revert hcase
    decide

end Join

end Adabt.Exec
