import Adabt.Storage.Contents
import Adabt.Storage.Lockstep

/-! # Where keyed inserts go

A keyed insert measures how far its key is from the range of every page that took
one, and how wide those ranges are, in 64-bit arithmetic. Where none of it
overflows, the hint decides nothing but the page, and the range of a page holds
every key that was placed there. -/

set_option autoImplicit false

namespace Adabt.Storage
open Adabt.Core Adabt.Library

/-- The exact result fits a signed 64-bit integer. -/
def FitsSigned (n : Int) : Prop := Int64.minValue.toInt ≤ n ∧ n ≤ Int64.maxValue.toInt

instance (n : Int) : Decidable (FitsSigned n) := inferInstanceAs (Decidable (_ ∧ _))

theorem signed_of_fits {what : String} {n : Int} (b : Build) (h : FitsSigned n) :
    b.signed what n = .ok (Int64.ofInt n) := if_pos h

theorem fits_of_signed {what : String} {n : Int} {x : Int64}
    (h : Build.checked.signed what n = .ok x) : FitsSigned n := by
  unfold Build.signed at h
  split_ifs at h with hn
  exact hn

/-- Either build computes what wraps to the exact result, when it computes anything. -/
theorem signed_value {b : Build} {what : String} {n : Int} {x : Int64}
    (h : b.signed what n = .ok x) : x = Int64.ofInt n := by
  unfold Build.signed at h
  split_ifs at h
  · exact (Except.ok.inj h).symm
  · cases b with
    | checked => cases h
    | release => exact (Except.ok.inj h).symm

theorem ofInt_difference (a b : Int64) : Int64.ofInt (a.toInt - b.toInt) = a - b := by
  rw [Int64.ofInt_sub, Int64.ofInt_toInt, Int64.ofInt_toInt]

theorem ofInt_double (a : Int64) : Int64.ofInt (a.toInt * 2) = a * 2 := by
  rw [Int64.ofInt_mul, Int64.ofInt_toInt]
  rfl

namespace ClusterState

variable (b : Build)

/-! ## The arithmetic of a build -/

def distanceIn (key : Int64) (range : Int64 × Int64) : Except Fault Int64 :=
  if key < range.1 then b.signed "subtract" (range.1.toInt - key.toInt)
  else if range.2 < key then b.signed "subtract" (key.toInt - range.2.toInt)
  else .ok 0

def candidateIn (key : Int64) (e : ℕ × Int64 × Int64) : Except Fault Candidate := do
  let dist ← distanceIn b key e.2
  let width ← b.signed "subtract" (e.2.2.toInt - e.2.1.toInt)
  return ⟨dist, width, e.1⟩

/-- One page's share of the key domain. -/
def share (c : ClusterState) : Int64 :=
  let lo := c.ranges.values.foldl (fun m r => min m r.1) Int64.maxValue
  let hi := c.ranges.values.foldl (fun m r => max m r.2) Int64.minValue
  saturatingSub hi lo / Int64.ofNat c.ranges.size

def slackIn (c : ClusterState) : Except Fault Int64 :=
  if Int64.ofNat c.ranges.size = 0 then .ok 0
  else do
    let twice ← b.signed "multiply" (c.share.toInt * 2)
    return max twice 1024

def candidatesIn (c : ClusterState) (key : Int64) : Except Fault (List ℕ) := do
  let all ← c.ranges.entries.mapM (candidateIn b key)
  let slack ← c.slackIn b
  return ((all.filter (·.dist ≤ slack)).insertionSort (·.le ·)).map (·.page)

/-- Nothing that a placement computes for the key leaves 64 bits. -/
structure Clear (c : ClusterState) (key : Int64) : Prop where
  below : ∀ e ∈ c.ranges.entries, key < e.2.1 → FitsSigned (e.2.1.toInt - key.toInt)
  above : ∀ e ∈ c.ranges.entries, ¬ key < e.2.1 → e.2.2 < key →
    FitsSigned (key.toInt - e.2.2.toInt)
  width : ∀ e ∈ c.ranges.entries, FitsSigned (e.2.2.toInt - e.2.1.toInt)
  slack : Int64.ofNat c.ranges.size ≠ 0 → FitsSigned (c.share.toInt * 2)

variable {b} {c : ClusterState} {key : Int64}

theorem distanceIn_value {range : Int64 × Int64} {d : Int64} (h : distanceIn b key range = .ok d) :
    d = distance key range := by
  unfold distanceIn at h
  unfold distance
  split_ifs at h ⊢
  · rw [signed_value h, ofInt_difference]
  · rw [signed_value h, ofInt_difference]
  · exact (Except.ok.inj h).symm

theorem candidateIn_value {e : ℕ × Int64 × Int64} {d : Candidate} (h : candidateIn b key e = .ok d) :
    d = ⟨distance key e.2, e.2.2 - e.2.1, e.1⟩ := by
  obtain ⟨dist, hd, h⟩ := bind_eq_ok.mp h
  obtain ⟨width, hw, h⟩ := bind_eq_ok.mp h
  rw [← Except.ok.inj h, distanceIn_value hd, signed_value hw, ofInt_difference]

theorem slackIn_value {s : Int64} (h : c.slackIn b = .ok s) : s = c.slack := by
  unfold slackIn at h
  unfold ClusterState.slack
  dsimp only
  split_ifs at h ⊢
  · exact (Except.ok.inj h).symm
  · obtain ⟨twice, ht, h⟩ := bind_eq_ok.mp h
    rw [← Except.ok.inj h, signed_value ht, ofInt_double]
    rfl

/-- Whatever the build, pages that come out of the computation are those of the hint. -/
theorem candidatesIn_value {pages : List ℕ} (h : c.candidatesIn b key = .ok pages) :
    pages = c.candidates key := by
  obtain ⟨all, ha, h⟩ := bind_eq_ok.mp h
  obtain ⟨s, hs, h⟩ := bind_eq_ok.mp h
  have hall : c.ranges.entries.map (fun e =>
      Candidate.mk (distance key e.2) (e.2.2 - e.2.1) e.1) = all := by
    have heach := (forall₂_of_mapM ha).imp fun _ _ hd => (candidateIn_value hd).symm
    rwa [← List.forall₂_map_left_iff, List.forall₂_eq_eq_eq] at heach
  rw [← Except.ok.inj h, ← hall, slackIn_value hs]
  rfl

theorem distanceIn_clear {range : Int64 × Int64} {d : Int64}
    (h : distanceIn .checked key range = .ok d) :
    (key < range.1 → FitsSigned (range.1.toInt - key.toInt)) ∧
      (¬ key < range.1 → range.2 < key → FitsSigned (key.toInt - range.2.toInt)) := by
  unfold distanceIn at h
  split_ifs at h with hlo hhi
  · exact ⟨fun _ => fits_of_signed h, fun hn => absurd hlo hn⟩
  · exact ⟨fun hl => absurd hl hlo, fun _ _ => fits_of_signed h⟩
  · exact ⟨fun hl => absurd hl hlo, fun _ hh => absurd hh hhi⟩

theorem Clear.candidateIn (h : c.Clear key) {e : ℕ × Int64 × Int64} (he : e ∈ c.ranges.entries) :
    candidateIn .checked key e = .ok ⟨distance key e.2, e.2.2 - e.2.1, e.1⟩ := by
  have hdist : distanceIn .checked key e.2 = .ok (distance key e.2) := by
    unfold distanceIn distance
    split_ifs with hlo hhi
    · rw [signed_of_fits _ (h.below e he hlo), ofInt_difference]
    · rw [signed_of_fits _ (h.above e he hlo hhi), ofInt_difference]
    · rfl
  unfold ClusterState.candidateIn
  rw [hdist, ok_bind, signed_of_fits _ (h.width e he), ofInt_difference]
  rfl

/-- With overflow checks a placement computes its pages just when nothing overflows. -/
theorem candidatesIn_checked_iff :
    c.candidatesIn .checked key = .ok (c.candidates key) ↔ c.Clear key := by
  constructor
  · intro h
    obtain ⟨all, ha, h⟩ := bind_eq_ok.mp h
    obtain ⟨s, hs, -⟩ := bind_eq_ok.mp h
    have heach : ∀ e ∈ c.ranges.entries, ∃ dist, distanceIn .checked key e.2 = .ok dist ∧
        FitsSigned (e.2.2.toInt - e.2.1.toInt) := by
      intro e he
      obtain ⟨d, -, hd⟩ := forall₂_mem_left (forall₂_of_mapM ha) he
      obtain ⟨dist, hdist, hd⟩ := bind_eq_ok.mp hd
      obtain ⟨width, hwidth, -⟩ := bind_eq_ok.mp hd
      exact ⟨dist, hdist, fits_of_signed hwidth⟩
    refine ⟨fun e he hlo => ?_, fun e he hlo hhi => ?_, fun e he => ?_, fun hsize => ?_⟩
    · obtain ⟨dist, hdist, -⟩ := heach e he
      exact (distanceIn_clear hdist).1 hlo
    · obtain ⟨dist, hdist, -⟩ := heach e he
      exact (distanceIn_clear hdist).2 hlo hhi
    · obtain ⟨_, -, hwidth⟩ := heach e he
      exact hwidth
    · unfold slackIn at hs
      rw [if_neg hsize] at hs
      obtain ⟨twice, ht, -⟩ := bind_eq_ok.mp hs
      exact fits_of_signed ht
  · intro h
    have hslack : c.slackIn .checked = .ok c.slack := by
      unfold slackIn ClusterState.slack
      dsimp only
      split_ifs with hsize
      · rfl
      · rw [signed_of_fits _ (h.slack hsize), ok_bind, ofInt_double]
        rfl
    have hall : c.ranges.entries.mapM (ClusterState.candidateIn .checked key) =
        .ok (c.ranges.entries.map fun e =>
          Candidate.mk (distance key e.2) (e.2.2 - e.2.1) e.1) :=
      mapM_ok (List.forall₂_map_right_iff.mpr (List.forall₂_same.mpr fun _ he => h.candidateIn he))
    unfold candidatesIn
    rw [hall, ok_bind, hslack, ok_bind]
    rfl

theorem get_widen (c : ClusterState) (page p : ℕ) (key : Int64) : (c.widen page key).ranges.get p =
    if p = page then (c.ranges.get page).map fun r => (min r.1 key, max r.2 key)
    else c.ranges.get p := by
  unfold widen
  cases hr : c.ranges.get page with
  | none =>
    dsimp only
    split_ifs with hp
    · rw [hp, hr]
      rfl
    · rfl
  | some r =>
    dsimp only
    rw [OrdMap.get_insert]
    rfl

end ClusterState

/-! ## What leaves the ranges alone -/

namespace Heap

variable (E : Env)

/-- The ranges are the same and the file did not shrink. -/
structure Unmoved (h h' : Heap) : Prop where
  ranges : ∀ name, clusterOf name h' = clusterOf name h
  pages : h.pool.pageCount ≤ h'.pool.pageCount

instance : Std.Refl Unmoved := ⟨fun _ => ⟨fun _ => rfl, le_refl _⟩⟩

instance : IsTrans Heap Unmoved :=
  ⟨fun _ _ _ a b => ⟨fun name => (b.ranges name).trans (a.ranges name), a.pages.trans b.pages⟩⟩

theorem Unmoved.of_same {h h' : Heap} (hc : h'.collections = h.collections)
    (hp : h.pool.pageCount ≤ h'.pool.pageCount) : Unmoved h h' :=
  ⟨fun name => by rw [clusterOf, hc]; rfl, hp⟩

/-- A collection was replaced by one with the same ranges. -/
theorem Unmoved.setCollection {h : Heap} {name : String} {c d : Collection}
    (hc : h.collections.get name = some c) (hd : d.cluster = c.cluster) :
    Unmoved h (setCollection name d h) := by
  refine ⟨fun n => ?_, le_refl _⟩
  unfold clusterOf Heap.setCollection
  rw [OrdMap.get_insert]
  split_ifs with hn
  · rw [hn, hc, Option.bind_some, Option.bind_some, hd]
  · rfl

theorem unmoved_coll (name : String) : Within Unmoved (coll name) := by
  refine within_get.bind fun h => ?_
  cases h.collections.get name with
  | none => exact within_throw _
  | some c => exact within_pure c

theorem post_getPage (pid : ℕ) (h : Heap) :
    Post (getPage pid) h (fun _ h' => h' = h ∧ pid < h.pool.pageCount) fun _ h' => h' = h := by
  unfold getPage
  rw [post_bind, post_get]
  exact post_attempt (fun _ hp => ⟨rfl, Pool.lt_of_get hp⟩) fun _ _ => rfl

theorem unmoved_getPage (page : ℕ) : Within Unmoved (getPage page) :=
  within_get.bind fun _ => within_attempt _

theorem unmoved_put (pid : ℕ) (page : Page) :
    Within Unmoved (modify fun h => { h with pool := h.pool.put pid page } : HeapM PUnit) :=
  within_modify fun h => .of_same rfl (Pool.pageCount_put h.pool pid page).ge

theorem unmoved_release (locs : List RecordLocation) : Within Unmoved (release locs) := by
  refine (within_forEach fun loc _ => ?_).bind fun _ => within_forEach fun pid _ => ?_
  · refine (unmoved_getPage _).bind fun page => ?_
    cases page.delete loc.slot with
    | ok page => exact unmoved_put _ _
    | error e => exact within_pure ()
  · exact (unmoved_getPage _).bind fun _ =>
      within_modify fun h => .of_same rfl (Pool.pageCount_put h.pool pid _).ge

theorem unmoved_trimAll (h : Heap) : Unmoved h (trimAll h) := by
  refine ⟨fun name => ?_, le_refl _⟩
  unfold clusterOf trimAll
  rw [OrdMap.get_mapVal]
  cases h.collections.get name <;> rfl

theorem unmoved_reclaim : Within Unmoved (reclaim E) :=
  within_get.bind fun _ => (within_modify unmoved_trimAll).bind fun _ =>
    (unmoved_release _).bind fun _ => (within_modify fun _ => .of_same rfl (le_refl _)).bind
      fun _ => within_pure _

theorem unmoved_maybeReclaim : Within Unmoved (maybeReclaim E) := by
  refine within_get.bind fun h => ?_
  by_cases hr : retentionLimit ≤ h.retained
  · rw [if_pos hr]
    exact (unmoved_reclaim E).bind fun _ => within_pure ()
  · rw [if_neg hr]
    exact within_pure ()

theorem unmoved_log (op : WalOp) : Within Unmoved (log E op) := by
  refine within_get.bind fun h => ?_
  by_cases hr : h.replaying
  · rw [if_pos hr]
    exact within_pure ()
  · rw [if_neg hr]
    exact (within_modify fun _ => .of_same rfl (le_refl _)).bind fun _ => within_attempt _

theorem unmoved_beginWrite : Within Unmoved beginWrite :=
  within_modifyGet fun _ => .of_same rfl (le_refl _)

theorem unmoved_pushVersion (name : String) (id : RecordId) (txn : ℕ) (loc : RecordLocation)
    (h : Heap) : Unmoved h (pushVersion name id txn loc h) := by
  unfold pushVersion
  cases hc : h.collections.get name with
  | none => exact refl_of Unmoved h
  | some c =>
    have hset := Unmoved.setCollection (d := { c with
      directory := c.directory.insert id (((c.directory.get id).getD .empty).push txn (some loc))
      nextRecordId := max c.nextRecordId (id + 1) }) hc rfl
    exact ⟨hset.ranges, hset.pages⟩

theorem unmoved_applyDelete (name : String) (id : RecordId) :
    Within Unmoved (applyDelete E name id) := by
  refine unmoved_beginWrite.bind fun txn => within_get_bind fun h => ?_
  cases hc : h.collections.get name with
  | none => exact within_pure false h
  | some c =>
    dsimp only
    cases c.directory.get id with
    | none => exact within_pure false h
    | some chain =>
      dsimp only
      by_cases ha : chain.isAbsent
      · rw [if_pos ha]
        exact within_pure false h
      · rw [if_neg ha, post_bind, post_modify]
        have hset := Unmoved.setCollection (d := { c with
          directory := c.directory.insert id (chain.push txn none) }) hc rfl
        have hpush : Unmoved h (pushTombstone name id txn c chain h) := ⟨hset.ranges, hset.pages⟩
        exact (((unmoved_maybeReclaim E).bind fun _ => within_pure true) _).mono
          (fun _ _ a => trans_of Unmoved hpush a) fun _ _ a => trans_of Unmoved hpush a

/-! ## Placing -/

theorem unmoved_insertInto (pid : ℕ) (page : Page) (payload : Bytes) :
    Within Unmoved (insertInto pid page payload) :=
  (within_attempt _).bind fun r => (within_modify fun h =>
    .of_same rfl (Pool.pageCount_put h.pool pid r.1).ge).bind fun _ => within_pure _

theorem unmoved_placeFresh (payload : Bytes) : Within Unmoved (placeFresh payload) :=
  (within_modifyGet fun _ => .of_same rfl (by simp)).bind fun pid =>
    (unmoved_getPage pid).bind fun page => unmoved_insertInto pid page payload

theorem unmoved_place (payload : Bytes) : Within Unmoved (place payload) := by
  refine within_get.bind fun h => ?_
  cases h.fsm.find (Page.costOf payload.length) with
  | none => exact unmoved_placeFresh payload
  | some pid =>
    refine (unmoved_getPage pid).bind fun page => ?_
    by_cases hfit : page.canFit payload.length
    · rw [if_pos hfit]
      exact unmoved_insertInto pid page payload
    · rw [if_neg hfit]
      exact (within_modify fun _ => .of_same rfl (le_refl _)).bind fun _ =>
        unmoved_placeFresh payload

theorem unmoved_applyPut (name : String) (id : RecordId) (bytes : Bytes) :
    Within Unmoved (applyPut E name id bytes) := by
  refine within_get.bind fun h => ?_
  cases h.collections.get name with
  | none => exact within_pure ()
  | some c =>
    refine Within.bind ?_ fun _ => unmoved_maybeReclaim E
    refine within_get.bind fun h => ?_
    dsimp only
    by_cases hbig : maxPayload < (buildPayload E c.id id bytes h.compress).length
    · rw [if_pos hbig]
      exact within_throw _
    · rw [if_neg hbig]
      exact unmoved_beginWrite.bind fun txn => (unmoved_place _).bind fun loc =>
        within_modify (unmoved_pushVersion name id txn loc)

theorem clusterOf_editCluster_ne {name n : String} (hn : n ≠ name)
    (f : ClusterState → ClusterState) (h : Heap) :
    clusterOf n (editCluster name f h) = clusterOf n h := by
  unfold editCluster
  cases hc : h.collections.get name with
  | none => rfl
  | some c =>
    unfold clusterOf
    dsimp only [Heap.setCollection]
    rw [OrdMap.get_insert_ne _ _ hn]

/-- The ranges of a collection that is there are edited. -/
theorem clusterOf_editCluster (name : String) (f : ClusterState → ClusterState) (h : Heap) :
    clusterOf name (editCluster name f h) = f (clusterOf name h) ∨
      clusterOf name h = ⟨∅⟩ ∧ clusterOf name (editCluster name f h) = ⟨∅⟩ := by
  unfold editCluster clusterOf
  cases hc : h.collections.get name with
  | none =>
    right
    dsimp only
    rw [hc]
    exact ⟨rfl, rfl⟩
  | some c =>
    left
    dsimp only [Heap.setCollection]
    rw [OrdMap.get_insert, if_pos rfl]
    rfl

theorem unmoved_hint (name : String) (h : Heap) : Unmoved h (editCluster name id h) := by
  refine ⟨fun n => ?_, (pool_editCluster name id h) ▸ le_refl _⟩
  by_cases hn : n = name
  · rw [hn]
    rcases clusterOf_editCluster name id h with heq | ⟨hnone, heq⟩
    · exact heq
    · exact heq.trans hnone.symm
  · exact clusterOf_editCluster_ne hn id h

/-- The page that took the key has it in its range, which is as wide as it was or is that
of a new page; no other range is another. -/
structure Took (name : String) (page : ℕ) (key : Int64) (h h' : Heap) : Prop where
  pages : h.pool.pageCount ≤ h'.pool.pageCount
  there : page < h'.pool.pageCount
  others : ∀ n p, (n, p) ≠ (name, page) → (clusterOf n h').ranges.get p = (clusterOf n h).ranges.get p
  range : ∀ r', (clusterOf name h').ranges.get page = some r' → r'.1 ≤ key ∧ key ≤ r'.2 ∧
    (h.pool.pageCount ≤ page ∨
      ∃ r, (clusterOf name h).ranges.get page = some r ∧ r'.1 ≤ r.1 ∧ r.2 ≤ r'.2)

theorem Took.after {name : String} {page : ℕ} {key : Int64} {h h1 h2 : Heap}
    (a : Took name page key h h1) (b : Unmoved h1 h2) : Took name page key h h2 := by
  refine ⟨a.pages.trans b.pages, a.there.trans_le b.pages, fun n p hne => ?_, fun r' hr => ?_⟩
  · rw [b.ranges, a.others n p hne]
  · rw [b.ranges] at hr
    exact a.range r' hr

theorem widened (lo hi key : Int64) :
    min lo key ≤ key ∧ key ≤ max hi key ∧ min lo key ≤ lo ∧ hi ≤ max hi key := by
  change (if lo ≤ key then lo else key) ≤ key ∧ key ≤ (if hi ≤ key then key else hi) ∧
    (if lo ≤ key then lo else key) ≤ lo ∧ hi ≤ (if hi ≤ key then key else hi)
  simp only [Int64.le_iff_toInt_le]
  split_ifs <;> omega

/-- The ranges of one collection were edited so that the page that took the key holds it. -/
theorem took_edit {name : String} {page : ℕ} {key : Int64} {h h' : Heap}
    {f : ClusterState → ClusterState} (a : Unmoved h h') (hp : page < h'.pool.pageCount)
    (hother : ∀ c p, p ≠ page → (f c).ranges.get p = c.ranges.get p)
    (hown : ∀ r', (f (clusterOf name h)).ranges.get page = some r' → r'.1 ≤ key ∧ key ≤ r'.2 ∧
      (h.pool.pageCount ≤ page ∨
        ∃ r, (clusterOf name h).ranges.get page = some r ∧ r'.1 ≤ r.1 ∧ r.2 ≤ r'.2)) :
    Took name page key h (editCluster name f h') := by
  have hpool := pool_editCluster name f h'
  refine ⟨hpool ▸ a.pages, hpool ▸ hp, fun n p hne => ?_, fun r' hr => ?_⟩
  · by_cases hn : n = name
    · subst hn
      have hpage : p ≠ page := fun hp => hne (by rw [hp])
      rcases clusterOf_editCluster n f h' with heq | ⟨hnone, heq⟩
      · rw [heq, hother _ p hpage, a.ranges]
      · rw [heq, ← hnone, a.ranges]
    · rw [clusterOf_editCluster_ne hn, a.ranges]
  · rcases clusterOf_editCluster name f h' with heq | ⟨-, heq⟩
    · rw [heq, a.ranges] at hr
      exact hown r' hr
    · rw [heq] at hr
      cases hr

theorem took_widen {name : String} {page : ℕ} {key : Int64} {h h' : Heap} (a : Unmoved h h')
    (hp : page < h'.pool.pageCount) : Took name page key h (editCluster name (·.widen page key) h') := by
  refine took_edit a hp (fun c p hne => ?_) fun r' hr => ?_
  · rw [ClusterState.get_widen, if_neg hne]
  · rw [ClusterState.get_widen, if_pos rfl, Option.map_eq_some_iff] at hr
    obtain ⟨r, hr, rfl⟩ := hr
    obtain ⟨hlo, hhi, hlow, hhigh⟩ := widened r.1 r.2 key
    exact ⟨hlo, hhi, .inr ⟨r, hr, hlow, hhigh⟩⟩

theorem took_start {name : String} {page : ℕ} {key : Int64} {h h' : Heap} (a : Unmoved h h')
    (hp : page < h'.pool.pageCount) (hnew : h.pool.pageCount ≤ page) :
    Took name page key h (editCluster name (·.start page key) h') := by
  refine took_edit a hp (fun c p hne => OrdMap.get_insert_ne _ _ hne) fun r' hr => ?_
  have hrange : (key, key) = r' := by
    unfold ClusterState.start at hr
    rw [OrdMap.get_insert, if_pos rfl] at hr
    exact Option.some.inj hr
  subst hrange
  exact ⟨Int64.le_refl key, Int64.le_refl key, .inl hnew⟩

theorem insertInto_page (pid : ℕ) (page : Page) (payload : Bytes) (h : Heap) :
    Post (insertInto pid page payload) h (fun loc h' => loc.page = pid ∧ Unmoved h h')
      fun _ => Unmoved h := by
  unfold insertInto
  rw [post_bind]
  refine post_attempt (fun r _ => ?_) fun _ _ => refl_of Unmoved h
  exact ⟨rfl, .of_same rfl (Pool.pageCount_put h.pool pid r.1).ge⟩

/-- Wherever a keyed placement puts the payload, the page's range takes the key. -/
theorem placeKeyed_took (name : String) (key : Int64) (payload : Bytes) (h : Heap) :
    Post (placeKeyed name key payload) h (fun loc h' => Took name loc.page key h h')
      fun _ => Unmoved h := by
  have hhint := unmoved_hint name h
  unfold placeKeyed
  rw [post_bind, post_modify, post_bind, post_get]
  dsimp only
  cases ((clusterOf name (editCluster name id h)).candidates key).find? _ with
  | some pid =>
    dsimp only
    rw [post_bind]
    refine (post_getPage _ _).mono (fun page h1 hp => ?_) fun _ h1 he => he ▸ hhint
    obtain ⟨rfl, hlt⟩ := hp
    rw [post_bind]
    refine (insertInto_page pid page payload _).mono (fun loc h2 hl => ?_)
      fun _ _ a => trans_of Unmoved hhint a
    obtain ⟨rfl, a⟩ := hl
    exact took_widen (trans_of Unmoved hhint a) (hlt.trans_le a.pages)
  | none =>
    dsimp only
    rw [post_bind]
    unfold placeFresh allocate
    rw [post_bind, post_modifyGet, post_bind]
    have hallocated : Unmoved (editCluster name id h) { editCluster name id h with
        pool := (editCluster name id h).pool.allocate.1 } := .of_same rfl (by simp)
    have hgrown := trans_of Unmoved hhint hallocated
    refine (post_getPage _ _).mono (fun page h1 hp => ?_) fun _ h1 he => he ▸ hgrown
    obtain ⟨rfl, hlt⟩ := hp
    refine (insertInto_page _ page payload _).mono (fun loc h2 hl => ?_)
      fun _ _ a => trans_of Unmoved hgrown a
    obtain ⟨hpage, a⟩ := hl
    have hnew : h.pool.pageCount ≤ loc.page := by
      rw [hpage]
      exact (hhint.pages : h.pool.pageCount ≤ (editCluster name id h).pool.pageCount)
    exact took_start (trans_of Unmoved hgrown a) (hpage ▸ hlt.trans_le a.pages) hnew

/-! ## The calls -/

/-- A keyed insert up to the point where it looks for a page: the write stamp and the
payload it looks one for. -/
def toPlacing (name : String) (id : RecordId) (rec : Record) : HeapM (Option (ℕ × Bytes)) := do
  let c ← coll name
  let bytes ← attempt (prepareInsert c id (normalizeForStorage rec))
  log E (.insert name id bytes)
  match (← get).collections.get name with
  | none => return none
  | some c =>
    let payload := buildPayload E c.id id bytes (← get).compress
    if maxPayload < payload.length then throw (exceedsPage bytes.length)
    else
      let txn ← beginWrite
      return some (txn, payload)

/-- What is left once the payload has a place. -/
def afterPlacing (name : String) (id : RecordId) (txn : ℕ) (loc : RecordLocation) : HeapM Unit := do
  modify (pushVersion name id txn loc)
  maybeReclaim E

def fromPlacing (name : String) (id : RecordId) (key : Int64) : Option (ℕ × Bytes) → HeapM Unit
  | none => return ()
  | some (txn, payload) => do
    let loc ← placeKeyed name key payload
    afterPlacing E name id txn loc

theorem insertKeyed_eq (name : String) (id : RecordId) (rec : Record) (key : Int64) :
    insertKeyed E name id rec key = toPlacing E name id rec >>= fromPlacing E name id key := by
  unfold insertKeyed insertBy toPlacing applyPutKeyed applyPutBy writeVersion
  simp only [bind_assoc]
  refine bind_congr fun c => bind_congr fun bytes => bind_congr fun _ => bind_congr fun h => ?_
  cases h.collections.get name with
  | none => rfl
  | some c =>
    dsimp only
    simp only [bind_assoc]
    refine bind_congr fun h => ?_
    split_ifs
    · rfl
    · simp only [bind_assoc]
      rfl

theorem unmoved_toPlacing (name : String) (id : RecordId) (rec : Record) :
    Within Unmoved (toPlacing E name id rec) := by
  refine (unmoved_coll name).bind fun c => (within_attempt _).bind fun bytes =>
    (unmoved_log E _).bind fun _ => within_get.bind fun h => ?_
  cases h.collections.get name with
  | none => exact within_pure none
  | some c =>
    refine within_get.bind fun h => ?_
    dsimp only
    by_cases hbig : maxPayload < (buildPayload E c.id id bytes h.compress).length
    · rw [if_pos hbig]
      exact within_throw _
    · rw [if_neg hbig]
      exact unmoved_beginWrite.bind fun txn => within_pure _

theorem unmoved_afterPlacing (name : String) (id : RecordId) (txn : ℕ) (loc : RecordLocation) :
    Within Unmoved (afterPlacing E name id txn loc) :=
  (within_modify (unmoved_pushVersion name id txn loc)).bind fun _ => unmoved_maybeReclaim E

end Heap

/-- The calls that place records, and those that free them. -/
inductive RecordCall where
  | insertKeyed (name : String) (id : RecordId) (rec : Record) (key : Int64)
  | insert (name : String) (id : RecordId) (rec : Record)
  | update (name : String) (id : RecordId) (rec : Record)
  | delete (name : String) (id : RecordId)
  | reclaim

/-- A heap, and the keys placed on each page through each collection. -/
structure Placements where
  heap : Heap
  placed : List (String × ℕ × Int64)

namespace RecordCall

variable (E : Env)

def program : RecordCall → HeapM Unit
  | insertKeyed name id rec key => Heap.insertKeyed E name id rec key
  | insert name id rec => Heap.insert E name id rec
  | update name id rec => do
    let _ ← Heap.update E name id rec
    return ()
  | delete name id => do
    let _ ← Heap.delete E name id
    return ()
  | reclaim => do
    let _ ← Heap.reclaim E
    return ()

/-- The heap goes on from wherever a call left it. -/
def step (c : RecordCall) (h : Heap) : Heap := exec (c.program E) h

/-- The same call without the hint. -/
def unkeyed : RecordCall → RecordCall
  | insertKeyed name id rec _ => insert name id rec
  | c => c

/-- A keyed insert that has a payload to place. -/
def placeIn (b : Build) (name : String) (id : RecordId) (key : Int64) (txn : ℕ) (payload : Bytes)
    (placed : List (String × ℕ × Int64)) (h : Heap) : Except Fault Placements := do
  let _ ← (Heap.clusterOf name h).candidatesIn b key
  match Heap.placeKeyed name key payload h with
  | .ok loc h' => return ⟨exec (Heap.afterPlacing E name id txn loc) h', (name, loc.page, key) :: placed⟩
  | .error _ h' => return ⟨h', placed⟩

/-- A call whose arithmetic on keys is that of the build. -/
def stepIn (b : Build) (c : RecordCall) (s : Placements) : Except Fault Placements :=
  match c with
  | insertKeyed name id rec key =>
    match Heap.toPlacing E name id rec s.heap with
    | .ok (some (txn, payload)) h => placeIn E b name id key txn payload s.placed h
    | .ok none h => .ok ⟨h, s.placed⟩
    | .error _ h => .ok ⟨h, s.placed⟩
  | c => .ok ⟨c.step E s.heap, s.placed⟩

def runIn (b : Build) : List RecordCall → Placements → Except Fault Placements
  | [], s => .ok s
  | c :: cs, s => do
    let s ← c.stepIn E b s
    runIn b cs s

/-- Where a keyed insert gets as far as looking for a page, its arithmetic stays in range. -/
def Roomy (c : RecordCall) (h : Heap) : Prop :=
  match c with
  | insertKeyed name id rec key => ∀ txn payload h',
      Heap.toPlacing E name id rec h = .ok (some (txn, payload)) h' → (Heap.clusterOf name h).Clear key
  | _ => True

/-- The ranges of a collection hold every key placed on their pages. -/
structure Covered (s : Placements) : Prop where
  there : ∀ p ∈ s.placed, p.2.1 < s.heap.pool.pageCount
  covers : ∀ p ∈ s.placed, ∀ r, (Heap.clusterOf p.1 s.heap).ranges.get p.2.1 = some r →
    r.1 ≤ p.2.2 ∧ p.2.2 ≤ r.2

variable {E} {b : Build} {c : RecordCall} {s s' : Placements}

theorem Covered.after (h : Covered s) {h' : Heap} (a : Heap.Unmoved s.heap h') :
    Covered ⟨h', s.placed⟩ where
  there p hp := (h.there p hp).trans_le a.pages
  covers p hp r hr := h.covers p hp r (by rwa [← a.ranges])

theorem Covered.took (h : Covered s) {name : String} {page : ℕ} {key : Int64} {h' : Heap}
    (a : Heap.Took name page key s.heap h') : Covered ⟨h', (name, page, key) :: s.placed⟩ where
  there := by
    rintro p (_ | ⟨_, hp⟩)
    · exact a.there
    · exact (h.there p hp).trans_le a.pages
  covers := by
    rintro p (_ | ⟨_, hp⟩) r' hr
    · exact ⟨(a.range r' hr).1, (a.range r' hr).2.1⟩
    · dsimp only at hr
      by_cases hsame : (p.1, p.2.1) = (name, page)
      · -- An earlier key of this page: the page is not new, so its range only widened.
        obtain ⟨hname, hpage⟩ := Prod.mk.inj hsame
        rw [hname, hpage] at hr
        obtain ⟨-, -, hnew | ⟨r, hold, hlo, hhi⟩⟩ := a.range r' hr
        · have := h.there p hp
          omega
        · obtain ⟨hlow, hhigh⟩ := h.covers p hp r (by rwa [hname, hpage])
          exact ⟨Int64.le_trans hlo hlow, Int64.le_trans hhigh hhi⟩
      · rw [a.others _ _ hsame] at hr
        exact h.covers p hp r' hr

/-- The heap a call leaves does not depend on how its arithmetic was carried out. -/
theorem stepIn_heap (h : c.stepIn E b s = .ok s') : s'.heap = c.step E s.heap := by
  cases c with
  | insertKeyed name id rec key =>
    change s'.heap = exec (Heap.insertKeyed E name id rec key) s.heap
    rw [Heap.insertKeyed_eq]
    unfold stepIn at h
    cases hp : Heap.toPlacing E name id rec s.heap with
    | error e h1 =>
      rw [exec_bind_error hp]
      simp only [hp] at h
      rw [← Except.ok.inj h]
    | ok o h1 =>
      rw [exec_bind_ok hp]
      cases o with
      | none =>
        simp only [hp] at h
        rw [← Except.ok.inj h]
        rfl
      | some r =>
        obtain ⟨txn, payload⟩ := r
        simp only [hp] at h
        obtain ⟨_, -, h⟩ := bind_eq_ok.mp h
        unfold Heap.fromPlacing
        cases hl : Heap.placeKeyed name key payload h1 with
        | error e h2 =>
          rw [exec_bind_error hl]
          simp only [hl] at h
          rw [← Except.ok.inj h]
        | ok loc h2 =>
          rw [exec_bind_ok hl]
          simp only [hl] at h
          rw [← Except.ok.inj h]
  | insert name id rec => rw [← Except.ok.inj h]
  | update name id rec => rw [← Except.ok.inj h]
  | delete name id => rw [← Except.ok.inj h]
  | reclaim => rw [← Except.ok.inj h]

theorem unmoved_step (hc : ∀ name id rec key, c ≠ insertKeyed name id rec key) :
    Within Heap.Unmoved (c.program E) := by
  cases c with
  | insertKeyed name id rec key => exact absurd rfl (hc name id rec key)
  | insert name id rec =>
    exact (Heap.unmoved_coll name).bind fun _ => (within_attempt _).bind fun _ =>
      (Heap.unmoved_log E _).bind fun _ => Heap.unmoved_applyPut E name id _
  | update name id rec =>
    refine Within.bind ?_ fun _ => within_pure ()
    exact (Heap.unmoved_coll name).bind fun _ => (within_attempt _).bind fun _ =>
      (within_attempt _).bind fun _ => (Heap.unmoved_log E _).bind fun _ =>
        (Heap.unmoved_applyPut E name id _).bind fun _ => within_pure _
  | delete name id =>
    refine Within.bind ((Heap.unmoved_coll name).bind fun c => ?_) fun _ => within_pure ()
    by_cases hl : Heap.isLive c id
    · rw [if_pos hl]
      exact (Heap.unmoved_log E _).bind fun _ => Heap.unmoved_applyDelete E name id
    · rw [if_neg hl]
      exact Heap.unmoved_applyDelete E name id
  | reclaim => exact (Heap.unmoved_reclaim E).bind fun _ => within_pure ()

/-- A call keeps the ranges true of the keys placed. -/
theorem stepIn_covered (hs : Covered s) (h : c.stepIn E b s = .ok s') : Covered s' := by
  have hplain : (∀ name id rec key, c ≠ insertKeyed name id rec key) →
      s' = ⟨c.step E s.heap, s.placed⟩ → Covered s' := by
    rintro hc rfl
    exact hs.after ((unmoved_step hc).exec s.heap)
  cases c with
  | insert name id rec => exact hplain nofun (Except.ok.inj h).symm
  | update name id rec => exact hplain nofun (Except.ok.inj h).symm
  | delete name id => exact hplain nofun (Except.ok.inj h).symm
  | reclaim => exact hplain nofun (Except.ok.inj h).symm
  | insertKeyed name id rec key =>
    have hto := Heap.unmoved_toPlacing E name id rec s.heap
    unfold stepIn at h
    cases hp : Heap.toPlacing E name id rec s.heap with
    | error e h1 =>
      simp only [hp] at h
      rw [← Except.ok.inj h]
      exact hs.after (hto.of_error hp)
    | ok o h1 =>
      have a1 := hto.of_ok hp
      cases o with
      | none =>
        simp only [hp] at h
        rw [← Except.ok.inj h]
        exact hs.after a1
      | some r =>
        obtain ⟨txn, payload⟩ := r
        simp only [hp] at h
        obtain ⟨_, -, h⟩ := bind_eq_ok.mp h
        have htook := Heap.placeKeyed_took name key payload h1
        have hs1 : Covered ⟨h1, s.placed⟩ := hs.after a1
        cases hl : Heap.placeKeyed name key payload h1 with
        | error e h2 =>
          simp only [hl] at h
          rw [← Except.ok.inj h]
          exact hs1.after (htook.of_error hl)
        | ok loc h2 =>
          simp only [hl] at h
          rw [← Except.ok.inj h]
          exact hs1.took ((htook.of_ok hl).after
            ((Heap.unmoved_afterPlacing E name id txn loc).exec h2))

/-- With overflow checks a call goes through just when its arithmetic has the room. -/
theorem stepIn_checked_iff : (∃ s', c.stepIn E .checked s = .ok s') ↔ c.Roomy E s.heap := by
  cases c with
  | insert name id rec => exact ⟨fun _ => trivial, fun _ => ⟨_, rfl⟩⟩
  | update name id rec => exact ⟨fun _ => trivial, fun _ => ⟨_, rfl⟩⟩
  | delete name id => exact ⟨fun _ => trivial, fun _ => ⟨_, rfl⟩⟩
  | reclaim => exact ⟨fun _ => trivial, fun _ => ⟨_, rfl⟩⟩
  | insertKeyed name id rec key =>
    unfold stepIn Roomy
    dsimp only
    cases hp : Heap.toPlacing E name id rec s.heap with
    | error e h1 =>
      refine ⟨fun _ _ _ _ hq => ?_, fun _ => ⟨_, rfl⟩⟩
      cases hq
    | ok o h1 =>
      cases o with
      | none =>
        refine ⟨fun _ _ _ _ hq => ?_, fun _ => ⟨_, rfl⟩⟩
        cases hq
      | some r =>
        obtain ⟨txn, payload⟩ := r
        have hranges := ((Heap.unmoved_toPlacing E name id rec s.heap).of_ok hp).ranges name
        rw [← hranges]
        constructor
        · rintro ⟨s', hs'⟩ _ _ _ -
          obtain ⟨pages, hpages, -⟩ := bind_eq_ok.mp hs'
          rw [ClusterState.candidatesIn_value hpages] at hpages
          exact ClusterState.candidatesIn_checked_iff.mp hpages
        · intro h
          have hclear := ClusterState.candidatesIn_checked_iff.mpr (h txn payload h1 rfl)
          dsimp only
          unfold placeIn
          rw [hclear, ok_bind]
          cases Heap.placeKeyed name key payload h1 with
          | ok loc h2 => exact ⟨_, rfl⟩
          | error e h2 => exact ⟨_, rfl⟩

/-! ## Runs -/

/-- A call and the same call without the hint leave alike heaps alike. -/
theorem step_alike {h u : Heap} (a : Heap.Alike h u) (c : RecordCall) :
    Heap.Alike (c.step E h) (c.unkeyed.step E u) := by
  have hplace : ∀ (_ : String) (_ : RecordId) (_ : Bytes), Heap.Places Heap.place := fun _ _ _ =>
    Heap.places_place
  cases c with
  | insertKeyed name id rec key =>
    have hkeyed : ∀ n (_ : RecordId) (_ : Bytes), Heap.Places (Heap.placeKeyed n key) :=
      fun n _ _ => Heap.places_placeKeyed n key
    exact (a.insertBy hkeyed hplace name id rec).exec
  | insert name id rec => exact (a.insertBy hplace hplace name id rec).exec
  | update name id rec =>
    exact ((a.update name id rec).bind fun _ _ _ a1 => Paired.pure () a1).exec
  | delete name id => exact ((a.delete name id).bind fun _ _ _ a1 => Paired.pure () a1).exec
  | reclaim =>
    unfold unkeyed step program
    dsimp only
    rw [exec_bind_pure, exec_bind_pure]
    obtain ⟨_, -, k⟩ := (Heap.keeps_reclaim E a.sound).result
    obtain ⟨_, -, k'⟩ := (Heap.keeps_reclaim E a.sound').result
    exact a.keeps k k'

theorem run_alike {h u : Heap} (a : Heap.Alike h u) (cs : List RecordCall) :
    Heap.Alike (run (step E) h cs) (run (step E) u (cs.map unkeyed)) := by
  induction cs generalizing h u with
  | nil => exact a
  | cons c cs ih => exact ih (step_alike a c)

theorem runIn_heap {cs : List RecordCall} (h : runIn E b cs s = .ok s') :
    s'.heap = run (step E) s.heap cs := by
  induction cs generalizing s with
  | nil => rw [← Except.ok.inj h]; rfl
  | cons c cs ih =>
    obtain ⟨s1, h1, h⟩ := bind_eq_ok.mp h
    rw [ih h, stepIn_heap h1]
    rfl

theorem runIn_covered {cs : List RecordCall} (hs : Covered s) (h : runIn E b cs s = .ok s') :
    Covered s' := by
  induction cs generalizing s with
  | nil => rwa [← Except.ok.inj h]
  | cons c cs ih =>
    obtain ⟨s1, h1, h⟩ := bind_eq_ok.mp h
    exact ih (stepIn_covered hs h1) h

theorem runIn_checked_iff {cs : List RecordCall} :
    (∃ s', runIn E .checked cs s = .ok s') ↔ Guarded (step E) (Roomy E) s.heap cs := by
  induction cs generalizing s with
  | nil => exact ⟨fun _ => trivial, fun _ => ⟨s, rfl⟩⟩
  | cons c cs ih =>
    constructor
    · rintro ⟨s', h⟩
      obtain ⟨s1, h1, h⟩ := bind_eq_ok.mp h
      refine ⟨stepIn_checked_iff.mp ⟨s1, h1⟩, ?_⟩
      rw [← stepIn_heap h1]
      exact ih.mp ⟨s', h⟩
    · rintro ⟨hc, hcs⟩
      obtain ⟨s1, h1⟩ := stepIn_checked_iff.mpr hc
      rw [← stepIn_heap h1] at hcs
      obtain ⟨s', h⟩ := ih.mpr hcs
      refine ⟨s', ?_⟩
      rw [runIn, h1, ok_bind, h]

/-- The store holds what it holds without the hint, and every range that a collection
has for a page holds the keys placed there. -/
theorem placement_invisible_iff (E : Env) {h : Heap} (hs : h.Sound) (hm : h.replaying = false)
    (cs : List RecordCall) :
    (∃ s, runIn E .checked cs ⟨h, []⟩ = .ok s ∧
      (Heap.getRecord E (run (step E) h (cs.map unkeyed)) = Heap.getRecord E s.heap ∧
        Heap.scan E (run (step E) h (cs.map unkeyed)) = Heap.scan E s.heap) ∧ Covered s) ↔
    Guarded (step E) (Roomy E) h cs := by
  have hstart : Covered ⟨h, []⟩ := ⟨nofun, nofun⟩
  rw [← @runIn_checked_iff E ⟨h, []⟩ cs]
  constructor
  · rintro ⟨s, hrun, -⟩
    exact ⟨s, hrun⟩
  · rintro ⟨s, hrun⟩
    have halike := run_alike (E := E) (.refl hs hm) cs
    rw [← runIn_heap hrun] at halike
    exact ⟨s, hrun, halike.reads, runIn_covered hstart hrun⟩

/-- An open store with one empty collection. -/
def oneCollection : Heap := exec (Heap.createCollection Env.plain "c" .dynamic) Heap.fresh

/-- The second key is further from the first than a 64-bit integer can say. -/
def extremeKeys : List RecordCall :=
  [.insertKeyed "c" 1 ∅ Int64.minValue, .insertKeyed "c" 2 ∅ Int64.maxValue]

/-- The distance to the first key overflows before a page is found for the second. -/
theorem extremes_overflow : ¬ ∃ s, runIn Env.plain .checked extremeKeys ⟨oneCollection, []⟩ = .ok s ∧
    (Heap.getRecord Env.plain (run (step Env.plain) oneCollection (extremeKeys.map unkeyed)) =
        Heap.getRecord Env.plain s.heap ∧
      Heap.scan Env.plain (run (step Env.plain) oneCollection (extremeKeys.map unkeyed)) =
        Heap.scan Env.plain s.heap) ∧ Covered s := by
  rintro ⟨s, hrun, -⟩
  have hnone : (runIn Env.plain .checked extremeKeys ⟨oneCollection, []⟩).toOption.isNone = true := by
    decide +kernel
  rw [hrun] at hnone
  cases hnone

theorem oneCollection_sound : oneCollection.Sound :=
  ((Heap.createCollection_spec Env.plain Heap.fresh_sound "c" .dynamic).mono
    (fun _ _ h => h.2.sound) fun _ _ k => k.evolves.sound).exec

def neighbours : List RecordCall :=
  [.insertKeyed "c" 1 ∅ 5, .insertKeyed "c" 2 ∅ 7, .delete "c" 1, .reclaim]

theorem neighbours_placed : (∃ s, runIn Env.plain .checked neighbours ⟨oneCollection, []⟩ = .ok s ∧
    (Heap.getRecord Env.plain (run (step Env.plain) oneCollection (neighbours.map unkeyed)) =
        Heap.getRecord Env.plain s.heap ∧
      Heap.scan Env.plain (run (step Env.plain) oneCollection (neighbours.map unkeyed)) =
        Heap.scan Env.plain s.heap) ∧ Covered s) ↔
    Guarded (step Env.plain) (Roomy Env.plain) oneCollection neighbours :=
  placement_invisible_iff Env.plain oneCollection_sound rfl neighbours

end RecordCall

end Adabt.Storage
