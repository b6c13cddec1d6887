import Adabt.Core.Error
import Adabt.Library.Bytes
import Adabt.Library.OrdMap
import Adabt.Library.Program
import Adabt.Library.Sequences
import Adabt.Storage.Catalog
import Adabt.Storage.Codec
import Adabt.Storage.Page
import Adabt.Storage.Pool
import Adabt.Storage.Version
import Adabt.Storage.Wal
import Mathlib.Data.List.Sort

/-! # The heap representation

A heap holds records in whatever page has room, addressed through a page
directory that lives in memory. Every mutation is logged before it touches a
page. What the code takes from outside (the compressor, the clock, the order in
which a hash map hands out its keys) is the environment. -/

set_option autoImplicit false

/-! ## The free-space map

Pages bucketed by how much free space they have, so that finding one with room
does not read every page. -/

namespace Adabt.Storage
open Adabt.Library

def bucketCount : ℕ := 8

def bucketSpan : ℕ := pageSize / bucketCount

structure FreeSpaceMap where
  free : OrdMap ℕ ℕ
  buckets : List (List ℕ)
  deriving DecidableEq

namespace FreeSpaceMap

def new : FreeSpaceMap := ⟨∅, List.replicate bucketCount []⟩

def classOf (free : ℕ) : ℕ := min (free / bucketSpan) (bucketCount - 1)

/-- Take a page out of the bucket it is in. -/
def unlist (m : FreeSpaceMap) (page : ℕ) : List (List ℕ) :=
  match m.free.get page with
  | some old => m.buckets.modify (classOf old) (swapRemoveFirst page)
  | none => m.buckets

def set (m : FreeSpaceMap) (page free : ℕ) : FreeSpaceMap :=
  ⟨m.free.insert page free, (m.unlist page).modify (classOf free) (· ++ [page])⟩

/-- Forget a page entirely, so it is never offered again. -/
def forget (m : FreeSpaceMap) (page : ℕ) : FreeSpaceMap :=
  match m.free.get page with
  | some _ => ⟨m.free.erase page, m.unlist page⟩
  | none => m

/-- A page with at least `need` bytes free, looked for from the class of `need` up. -/
def find (m : FreeSpaceMap) (need : ℕ) : Option ℕ :=
  (m.buckets.drop (classOf need)).flatten.find? fun p => need ≤ (m.free.get p).getD 0

theorem find_known {m : FreeSpaceMap} {need p : ℕ} (h : m.find need = some p) (hn : 0 < need) :
    ∃ free, m.free.get p = some free ∧ need ≤ free := by
  unfold find at h
  have hp : need ≤ (m.free.get p).getD 0 := by simpa using List.find?_some h
  cases hf : m.free.get p with
  | none =>
    rw [hf, Option.getD_none] at hp
    omega
  | some free =>
    rw [hf, Option.getD_some] at hp
    exact ⟨free, rfl, hp⟩

theorem free_set (m : FreeSpaceMap) (page free p : ℕ) :
    (m.set page free).free.get p = if p = page then some free else m.free.get p :=
  OrdMap.get_insert m.free page p free

/-! ### Every page in its bucket -/

theorem classOf_mono {a b : ℕ} (h : a ≤ b) : classOf a ≤ classOf b :=
  min_le_min_right _ (Nat.div_le_div_right h)

theorem classOf_lt (free : ℕ) : classOf free < bucketCount :=
  Nat.lt_succ_of_le (Nat.min_le_right _ _)

/-- A page is once in the bucket of its class if its free size is recorded, and in no
other bucket. -/
structure Bucketed (free : OrdMap ℕ ℕ) (buckets : List (List ℕ)) : Prop where
  length : buckets.length = bucketCount
  count : ∀ i bucket, buckets[i]? = some bucket → ∀ p,
    bucket.count p = if (free.get p).map classOf = some i then 1 else 0

theorem bucketed_new : Bucketed new.free new.buckets where
  length := List.length_replicate
  count := by
    intro i bucket h p
    obtain rfl := List.eq_of_mem_replicate (List.mem_of_getElem? h)
    rfl

theorem Bucketed.unlist {m : FreeSpaceMap} (h : Bucketed m.free m.buckets) (page : ℕ) :
    Bucketed (m.free.erase page) (m.unlist page) := by
  cases hold : m.free.get page with
  | none => rwa [FreeSpaceMap.unlist, hold, m.free.erase_of_none hold]
  | some old =>
    rw [FreeSpaceMap.unlist, hold]
    constructor
    · rw [List.length_modify, h.length]
    · intro i bucket hi p
      rw [List.getElem?_modify] at hi
      obtain ⟨b, hb, rfl⟩ := Option.map_eq_some_iff.mp hi
      have hcount := h.count i b hb
      rw [OrdMap.get_erase]
      by_cases hp : p = page
      · have hnone : ¬(none : Option ℕ) = some i := fun h => by cases h
        rw [if_pos hp, Option.map_none, if_neg hnone]
        have hpage := hcount p
        rw [hp, hold, Option.map_some] at hpage
        split_ifs with hclass
        · rw [if_pos (congrArg some hclass)] at hpage
          rw [(swapRemoveFirst_perm page b).count_eq, hp, List.count_erase_self, hpage]
        · rw [hp, hpage, if_neg fun heq => hclass (Option.some.inj heq)]
      · rw [if_neg hp, ← hcount p]
        split_ifs with hclass
        · rw [(swapRemoveFirst_perm page b).count_eq, List.count_erase_of_ne hp]
        · rfl

theorem Bucketed.push {free : OrdMap ℕ ℕ} {buckets : List (List ℕ)} {page : ℕ}
    (h : Bucketed free buckets) (hnew : free.get page = none) (size : ℕ) :
    Bucketed (free.insert page size) (buckets.modify (classOf size) (· ++ [page])) := by
  constructor
  · rw [List.length_modify, h.length]
  · intro i bucket hi p
    rw [List.getElem?_modify] at hi
    obtain ⟨b, hb, rfl⟩ := Option.map_eq_some_iff.mp hi
    have hcount := h.count i b hb
    rw [OrdMap.get_insert]
    by_cases hp : p = page
    · have hpage := hcount p
      rw [hp, hnew, Option.map_none, if_neg fun h => by cases h] at hpage
      rw [if_pos hp, Option.map_some, hp]
      split_ifs with hclass hsome hsome
      · rw [List.count_append, hpage, List.count_singleton_self]
      · exact absurd (congrArg some hclass) hsome
      · exact absurd (Option.some.inj hsome) hclass
      · exact hpage
    · rw [if_neg hp, ← hcount p]
      split_ifs with hclass
      · rw [List.count_append, List.count_singleton, if_neg (by simpa using Ne.symm hp),
          Nat.add_zero]
      · rfl

theorem bucketed_set {m : FreeSpaceMap} (h : Bucketed m.free m.buckets) (page size : ℕ) :
    Bucketed (m.set page size).free (m.set page size).buckets := by
  have hpush := (h.unlist page).push (m.free.get_erase_self page) size
  have hinsert : (m.free.erase page).insert page size = m.free.insert page size := by
    ext1 p
    rw [OrdMap.get_insert, OrdMap.get_insert, OrdMap.get_erase]
    split_ifs <;> rfl
  rwa [hinsert] at hpush

theorem bucketed_forget {m : FreeSpaceMap} (h : Bucketed m.free m.buckets) (page : ℕ) :
    Bucketed (m.forget page).free (m.forget page).buckets := by
  rw [FreeSpaceMap.forget]
  cases hold : m.free.get page with
  | none => exact h
  | some old => exact h.unlist page

/-! ### Finding a page -/

theorem Bucketed.mem {free : OrdMap ℕ ℕ} {buckets : List (List ℕ)} (h : Bucketed free buckets)
    {i : ℕ} {bucket : List ℕ} (hi : buckets[i]? = some bucket) {p : ℕ} :
    p ∈ bucket ↔ (free.get p).map classOf = some i := by
  rw [← List.count_pos_iff, h.count i bucket hi p]
  split_ifs with hp <;> simp [hp]

/-- The bucket of a page that fits is among those looked through. -/
theorem Bucketed.mem_drop {free : OrdMap ℕ ℕ} {buckets : List (List ℕ)} (h : Bucketed free buckets)
    {p size need : ℕ} (hp : free.get p = some size) (hneed : need ≤ size) :
    p ∈ (buckets.drop (classOf need)).flatten := by
  have hlt : classOf size < buckets.length := h.length ▸ classOf_lt size
  have hbucket : buckets[classOf size]? = some buckets[classOf size] :=
    List.getElem?_eq_getElem hlt
  refine List.mem_flatten.mpr ⟨buckets[classOf size], ?_, (h.mem hbucket).mpr (by rw [hp]; rfl)⟩
  apply List.mem_of_getElem? (i := classOf size - classOf need)
  rwa [List.getElem?_drop, Nat.add_sub_cancel' (classOf_mono hneed)]

theorem Bucketed.recorded {free : OrdMap ℕ ℕ} {buckets : List (List ℕ)} (h : Bucketed free buckets)
    {p n : ℕ} (hp : p ∈ (buckets.drop n).flatten) : ∃ size, free.get p = some size := by
  obtain ⟨bucket, hbucket, hp⟩ := List.mem_flatten.mp hp
  obtain ⟨i, hi⟩ := List.getElem?_of_mem (List.mem_of_mem_drop hbucket)
  obtain ⟨size, hsize, -⟩ := Option.map_eq_some_iff.mp ((h.mem hi).mp hp)
  exact ⟨size, hsize⟩

theorem find_fits {m : FreeSpaceMap} (h : Bucketed m.free m.buckets) {need p : ℕ}
    (hp : m.find need = some p) : ∃ size, m.free.get p = some size ∧ need ≤ size := by
  rw [find] at hp
  obtain ⟨size, hsize⟩ := h.recorded (List.mem_of_find?_eq_some hp)
  have hneed : need ≤ (m.free.get p).getD 0 := by simpa using List.find?_some hp
  rw [hsize] at hneed
  exact ⟨size, hsize, hneed⟩

theorem find_none_iff {m : FreeSpaceMap} (h : Bucketed m.free m.buckets) {need : ℕ} :
    m.find need = none ↔ ∀ p size, m.free.get p = some size → size < need := by
  rw [find, List.find?_eq_none]
  constructor
  · intro hnone p size hsize
    by_contra hle
    have hp := hnone p (h.mem_drop hsize (not_lt.mp hle))
    rw [hsize] at hp
    exact hp (decide_eq_true (not_lt.mp hle))
  · intro hsmall p hp hneed
    obtain ⟨size, hsize⟩ := h.recorded hp
    have hlt := hsmall p size hsize
    rw [hsize] at hneed
    exact absurd (of_decide_eq_true hneed) (not_le.mpr hlt)

/-! ### Runs -/

inductive Call where
  | set (page free : ℕ)
  | forget (page : ℕ)

def call (m : FreeSpaceMap) : Call → FreeSpaceMap
  | .set page free => m.set page free
  | .forget page => m.forget page

theorem bucketed_run {m : FreeSpaceMap} (h : Bucketed m.free m.buckets) (calls : List Call) :
    Bucketed (calls.foldl call m).free (calls.foldl call m).buckets := by
  induction calls generalizing m with
  | nil => exact h
  | cons c calls ih =>
    cases c with
    | set page free => exact ih (bucketed_set h page free)
    | forget page => exact ih (bucketed_forget h page)

/-- After any calls every page is in the bucket that its free size
says, and what is found is right. -/
theorem free_space_exact (calls : List Call) :
    (∀ page size, (calls.foldl call new).free.get page = some size →
      ∃ bucket, (calls.foldl call new).buckets[classOf size]? = some bucket ∧
        bucket.count page = 1 ∧
          ∀ i other, (calls.foldl call new).buckets[i]? = some other → i ≠ classOf size →
            page ∉ other) ∧
    (∀ page, (calls.foldl call new).free.get page = none →
      ∀ bucket ∈ (calls.foldl call new).buckets, page ∉ bucket) ∧
    ∀ need,
      (∀ page, (calls.foldl call new).find need = some page →
        ∃ size, (calls.foldl call new).free.get page = some size ∧ need ≤ size) ∧
      ((calls.foldl call new).find need = none ↔
        ∀ page size, (calls.foldl call new).free.get page = some size → size < need) := by
  have h := bucketed_run bucketed_new calls
  refine ⟨fun page size hsize => ?_, fun page hnone bucket hbucket hmem => ?_,
    fun need => ⟨fun page => find_fits h, find_none_iff h⟩⟩
  · have hlt : classOf size < (calls.foldl call new).buckets.length := h.length ▸ classOf_lt size
    have hbucket := List.getElem?_eq_getElem hlt
    refine ⟨_, hbucket, ?_, fun i other hi hne hmem => ?_⟩
    · rw [h.count _ _ hbucket, hsize]
      exact if_pos rfl
    · rw [h.mem hi, hsize] at hmem
      exact hne (Option.some.inj hmem).symm
  · obtain ⟨i, hi⟩ := List.getElem?_of_mem hbucket
    rw [h.mem hi, hnone] at hmem
    cases hmem

end FreeSpaceMap

end Adabt.Storage

/-! ## Record compression

Applied per record and only when it pays, so a store can hold both encodings.
The compressor itself is a parameter, of which only losslessness is assumed. -/

namespace Adabt.Storage
open Adabt.Core Adabt.Library

structure Lz4 where
  compress : Bytes → Bytes
  decompress : Bytes → Except String Bytes
  lossless : ∀ b, decompress (compress b) = .ok b

inductive Encoding where
  | raw
  | lz4
  deriving DecidableEq, Repr

namespace Encoding

def bit : Encoding → UInt8
  | raw => 0
  | lz4 => 1

def fromBit (b : UInt8) : Except Error Encoding :=
  if b = 0 then .ok raw
  else if b = 1 then .ok lz4
  else .error (.corruption ("unknown record encoding " ++ toString b.toNat))

theorem fromBit_bit (e : Encoding) : fromBit e.bit = .ok e := by
  cases e <;> rfl

end Encoding

/-- Below this the framing overhead is not worth the time. -/
def minInput : ℕ := 64

/-- Compress if it saves at least twelve percent. -/
def maybeCompress (lz : Lz4) (input : Bytes) : Encoding × Bytes :=
  if input.length < minInput then (.raw, input)
  else if 100 * (lz.compress input).length ≤ 88 * input.length then (.lz4, lz.compress input)
  else (.raw, input)

def decompress (lz : Lz4) : Encoding → Bytes → Except Error Bytes
  | .raw, data => .ok data
  | .lz4, data =>
    match lz.decompress data with
    | .ok b => .ok b
    | .error e => .error (.corruption ("could not decompress record: " ++ e))

theorem decompress_maybeCompress (lz : Lz4) (input : Bytes) :
    decompress lz (maybeCompress lz input).1 (maybeCompress lz input).2 = .ok input := by
  unfold maybeCompress
  split
  · rfl
  · split
    · simp only [decompress, lz.lossless]
    · rfl

/-- Compression never makes a record bigger. -/
theorem maybeCompress_length_le (lz : Lz4) (input : Bytes) :
    (maybeCompress lz input).2.length ≤ input.length := by
  unfold maybeCompress
  split
  · exact Nat.le_refl _
  · split
    · next h =>
      dsimp only
      omega
    · exact Nat.le_refl _

end Adabt.Storage

/-! ## The clustering hint

Which pages a keyed insert tries, and in which order: those whose key range is
within a load-dependent distance of the key, nearest and tightest first. Keys
are 64-bit and wrap as the code's do. -/

namespace Adabt.Storage
open Adabt.Library

structure ClusterState where
  ranges : OrdMap ℕ (Int64 × Int64)
  deriving DecidableEq

namespace ClusterState

def saturatingSub (a b : Int64) : Int64 :=
  let d := a.toInt - b.toInt
  if d < Int64.minValue.toInt then Int64.minValue
  else if Int64.maxValue.toInt < d then Int64.maxValue
  else Int64.ofInt d

def distance (key : Int64) (range : Int64 × Int64) : Int64 :=
  if key < range.1 then range.1 - key
  else if range.2 < key then key - range.2
  else 0

structure Candidate where
  dist : Int64
  width : Int64
  page : ℕ

def Candidate.le (a b : Candidate) : Bool :=
  if a.dist ≠ b.dist then a.dist < b.dist
  else if a.width ≠ b.width then a.width < b.width
  else a.page ≤ b.page

def slack (c : ClusterState) : Int64 :=
  let pages := Int64.ofNat c.ranges.size
  if pages = 0 then 0
  else
    let lo := c.ranges.values.foldl (fun m r => min m r.1) Int64.maxValue
    let hi := c.ranges.values.foldl (fun m r => max m r.2) Int64.minValue
    max (saturatingSub hi lo / pages * 2) 1024

/-- The pages to try for a key, best first. -/
def candidates (c : ClusterState) (key : Int64) : List ℕ :=
  let all := c.ranges.entries.map fun e => Candidate.mk (distance key e.2) (e.2.2 - e.2.1) e.1
  ((all.filter (·.dist ≤ c.slack)).insertionSort (·.le ·)).map (·.page)

/-- A page that took a key widens its range to hold it. -/
def widen (c : ClusterState) (page : ℕ) (key : Int64) : ClusterState :=
  match c.ranges.get page with
  | some r => ⟨c.ranges.insert page (min r.1 key, max r.2 key)⟩
  | none => c

def start (c : ClusterState) (page : ℕ) (key : Int64) : ClusterState :=
  ⟨c.ranges.insert page (key, key)⟩

end ClusterState

end Adabt.Storage

/-! ## The heap -/

namespace Adabt.Storage
open Adabt.Core Adabt.Library

structure Env where
  lz4 : Lz4
  /-- The clock at each log position. -/
  clock : ℕ → ℕ
  /-- The iteration order of a map keyed by names, at each log position. -/
  names : ℕ → List String → List String
  names_perm : ∀ n l, (names n l).Perm l
  /-- The iteration order of a map keyed by pages, at each log position. -/
  pages : ℕ → List ℕ → List ℕ
  pages_perm : ∀ n l, (pages n l).Perm l

/-- Nothing is compressed, the clock stands still and every order is kept. -/
def Env.plain : Env where
  lz4 := ⟨id, .ok, fun _ => rfl⟩
  clock := fun _ => 0
  names := fun _ l => l
  names_perm := fun _ l => .refl l
  pages := fun _ l => l
  pages_perm := fun _ l => .refl l

/-- Collection id, record id and encoding, before every stored payload. -/
def slotPrefix : ℕ := 13

def maxRecordBytes : ℕ := maxPayload - slotPrefix

structure Collection where
  id : CollectionId
  codec : RecordCodec
  directory : OrdMap RecordId VersionChain
  nextRecordId : RecordId
  cluster : Option ClusterState
  clusterName : Option String

structure Heap where
  pool : Pool
  wal : Wal
  collections : OrdMap String Collection
  byId : OrdMap CollectionId String
  nextCollectionId : CollectionId
  fsm : FreeSpaceMap
  /-- Whether new writes are compressed. -/
  compress : Bool
  deltaEncoding : Bool
  threadPerCore : Bool
  versions : VersionTracker
  /-- Superseded versions currently retained. -/
  retained : ℕ
  indexDefs : List IndexDef
  replaying : Bool
  catalogFile : Option Catalog
  directoryFile : Option DirectoryFile

abbrev HeapM := EStateM Error Heap

def migrationPrefix : String := "\x00migrating:"

def migrationName (collection : String) : String := migrationPrefix ++ collection

def isMigrationName (name : String) : Bool := migrationPrefix.toList.isPrefixOf name.toList

namespace Heap

variable (E : Env)

def coll (name : String) : HeapM Collection := do
  match (← get).collections.get name with
  | some c => return c
  | none => throw (.noSuchCollection name)

def getPage (page : ℕ) : HeapM Page := do attempt ((← get).pool.get page)

def setCollection (name : String) (c : Collection) (h : Heap) : Heap :=
  { h with collections := h.collections.insert name c }

/-! ## Physical operations -/

def buildPayload (cid : CollectionId) (id : RecordId) (bytes : Bytes) (compress : Bool) : Bytes :=
  let (encoding, body) := if compress then maybeCompress E.lz4 bytes else (.raw, bytes)
  leBytes 4 cid ++ leBytes 8 id ++ encoding.bit :: body

def exceedsPage (len : ℕ) : Error :=
  .corruption ("record of " ++ toString len ++ " bytes exceeds the " ++ toString maxRecordBytes ++
    "-byte page limit")

/-- Insert into a page that was just looked at, and note what room it has left. -/
def insertInto (pid : ℕ) (page : Page) (payload : Bytes) : HeapM RecordLocation := do
  let (page, slot) ← attempt (page.insert payload)
  modify fun h => { h with pool := h.pool.put pid page, fsm := h.fsm.set pid page.freeSpace }
  return ⟨pid, slot⟩

def allocate : HeapM ℕ :=
  modifyGet fun h => (h.pool.allocate.2, { h with pool := h.pool.allocate.1 })

def placeFresh (payload : Bytes) : HeapM RecordLocation := do
  let pid ← allocate
  let page ← getPage pid
  insertInto pid page payload

def place (payload : Bytes) : HeapM RecordLocation := do
  match (← get).fsm.find (Page.costOf payload.length) with
  | some pid =>
    let page ← getPage pid
    if page.canFit payload.length then insertInto pid page payload
    else
      -- The map was stale; correct it and fall through to a new page.
      modify fun h => { h with fsm := h.fsm.set pid page.freeSpace }
      placeFresh payload
  | none => placeFresh payload

def editCluster (name : String) (f : ClusterState → ClusterState) (h : Heap) : Heap :=
  match h.collections.get name with
  | some c => h.setCollection name { c with cluster := some (f (c.cluster.getD ⟨∅⟩)) }
  | none => h

def clusterOf (name : String) (h : Heap) : ClusterState :=
  ((h.collections.get name).bind (·.cluster)).getD ⟨∅⟩

/-- Place a payload where its neighbours in key order are. -/
def placeKeyed (collection : String) (key : Int64) (payload : Bytes) : HeapM RecordLocation := do
  modify (editCluster collection id)
  let h ← get
  let fits (pid : ℕ) : Bool := match h.pool.get pid with
    | .ok page => page.canFit payload.length
    | .error _ => false
  match ((clusterOf collection h).candidates key).find? fits with
  | some pid =>
    let page ← getPage pid
    let loc ← insertInto pid page payload
    modify (editCluster collection (·.widen pid key))
    return loc
  | none =>
    let loc ← placeFresh payload
    modify (editCluster collection (·.start loc.page key))
    return loc

def beginWrite : HeapM ℕ :=
  modifyGet fun h => (h.versions.next, { h with versions := h.versions.beginWrite })

/-- Append a value to a record's chain, and count what it supersedes. -/
def pushVersion (collection : String) (id : RecordId) (txn : ℕ) (loc : RecordLocation)
    (h : Heap) : Heap :=
  match h.collections.get collection with
  | none => h
  | some c =>
    let chain := (c.directory.get id).getD .empty
    { h.setCollection collection { c with
        directory := c.directory.insert id (chain.push txn (some loc))
        nextRecordId := max c.nextRecordId (id + 1) } with
      retained := if chain.versions = [] then h.retained else h.retained + 1 }

def deleteAt (loc : RecordLocation) : HeapM Unit := do
  let page ← getPage loc.page
  match page.delete loc.slot with
  | .ok page => modify fun h => { h with pool := h.pool.put loc.page page }
  | .error _ => return ()

/-- Compact a page that lost slots, so that its freed bytes are usable again. -/
def settle (pid : ℕ) : HeapM Unit := do
  let page ← getPage pid
  let page := if 0 < page.fragmentation then page.compact else page
  modify fun h => { h with pool := h.pool.put pid page, fsm := h.fsm.set pid page.freeSpace }

def touchedPages (locs : List RecordLocation) : List ℕ :=
  locs.foldl (fun seen loc => if loc.page ∈ seen then seen else seen ++ [loc.page]) []

/-- Free the slots at these locations, and settle the pages they are on. -/
def release (locs : List RecordLocation) : HeapM Unit := do
  forEach deleteAt locs
  forEach settle (touchedPages locs)

def freePagesOf (c : Collection) : HeapM Unit :=
  release (c.directory.values.flatMap (·.locations))

/-- A chain holding only a tombstone is dropped once reclaimed. -/
def trimDirectory (horizon : ℕ) (d : OrdMap RecordId VersionChain) : OrdMap RecordId VersionChain :=
  (d.mapVal fun _ chain => (chain.reclaimTo horizon).1).filter
    fun _ chain => !(chain.len = 1 && chain.isAbsent)

def freedLocations (horizon : ℕ) (d : OrdMap RecordId VersionChain) : List RecordLocation :=
  d.values.flatMap fun chain => (chain.reclaimTo horizon).2

/-- Every chain trimmed to the horizon. -/
def trimAll (h : Heap) : Heap :=
  { h with collections := h.collections.mapVal fun _ c =>
      { c with directory := trimDirectory h.versions.reclaimHorizon c.directory } }

/-- The locations a reclaim frees. -/
def freedBy (h : Heap) : List RecordLocation :=
  (E.names h.wal.nextLsn h.collections.keys).flatMap fun name =>
    ((h.collections.get name).map fun c =>
      freedLocations h.versions.reclaimHorizon c.directory).getD []

/-- Free versions no open snapshot can reach; the number of them is returned. -/
def reclaim : HeapM ℕ := do
  let freed := freedBy E (← get)
  modify trimAll
  release freed
  modify fun h => { h with retained := h.retained - freed.length }
  return freed.length

def retentionLimit : ℕ := 4096

def maybeReclaim : HeapM Unit := do
  if retentionLimit ≤ (← get).retained then
    let _ ← reclaim E
    return ()
  else return ()

/-- Write a new version, placed by `placing`; never an update in place. -/
def writeVersion (placing : Bytes → HeapM RecordLocation) (collection : String) (c : Collection)
    (id : RecordId) (bytes : Bytes) : HeapM Unit := do
  let payload := buildPayload E c.id id bytes (← get).compress
  if maxPayload < payload.length then throw (exceedsPage bytes.length)
  else
    let txn ← beginWrite
    let loc ← placing payload
    modify (pushVersion collection id txn loc)

/-- `apply_put` and `apply_put_keyed`, which differ in where they place the version. -/
def applyPutBy (placing : Bytes → HeapM RecordLocation) (collection : String) (id : RecordId)
    (bytes : Bytes) : HeapM Unit := do
  match (← get).collections.get collection with
  | none => return ()
  | some c =>
    writeVersion E placing collection c id bytes
    maybeReclaim E

def applyPut (collection : String) (id : RecordId) (bytes : Bytes) : HeapM Unit :=
  applyPutBy E place collection id bytes

def applyPutKeyed (collection : String) (id : RecordId) (bytes : Bytes) (key : Int64) :
    HeapM Unit :=
  applyPutBy E (placeKeyed collection key) collection id bytes

/-- A tombstone rather than a removal: an older snapshot must still find the record. -/
def pushTombstone (collection : String) (id : RecordId) (txn : ℕ) (c : Collection)
    (chain : VersionChain) (h : Heap) : Heap :=
  { h.setCollection collection { c with directory := c.directory.insert id (chain.push txn none) } with
    retained := h.retained + 1 }

def applyDelete (collection : String) (id : RecordId) : HeapM Bool := do
  let txn ← beginWrite
  match (← get).collections.get collection with
  | none => return false
  | some c =>
    match c.directory.get id with
    | none => return false
    | some chain =>
      if chain.isAbsent then return false
      else
        modify (pushTombstone collection id txn c chain)
        maybeReclaim E
        return true

/-! ## The collection tables -/

def registerWithId (name : String) (schema : Schema) (id : CollectionId) (h : Heap) : Heap :=
  { h with
    nextCollectionId := max h.nextCollectionId (id + 1)
    collections := h.collections.insert name ⟨id, .new schema, ∅, 0, none, none⟩
    byId := h.byId.insert id name }

def register (name : String) (schema : Schema) (h : Heap) : Heap :=
  registerWithId name schema h.nextCollectionId
    { h with nextCollectionId := h.nextCollectionId + 1 }

/-- Take a collection out of both tables. -/
def unregister (name : String) (c : Collection) (h : Heap) : Heap :=
  { h with collections := h.collections.erase name, byId := h.byId.erase c.id }

def setSchema (collection : String) (schema : Schema) : HeapM Unit := do
  let c ← coll collection
  modify (setCollection collection { c with codec := .new schema })

/-- `apply_alter_schema_in_place`: the codec is rebuilt and nothing else changes. -/
def applyAlterSchemaInPlace (collection : String) (schema : Schema) : HeapM Unit :=
  setSchema collection schema

/-- Hand `source`'s identity and records to `target`, discarding the old. -/
def adopt (target source : String) : HeapM Unit := do
  match (← get).collections.get source with
  | none => return ()
  | some staged =>
    modify (unregister source staged)
    match (← get).collections.get target with
    | none => pure ()
    | some old =>
      modify (unregister target old)
      freePagesOf old
    modify fun h => { h with
      byId := h.byId.insert staged.id target
      collections := h.collections.insert target staged }

def log (op : WalOp) : HeapM Unit := do
  let h ← get
  if h.replaying then return ()
  else
    let (result, wal) := h.wal.append (E.clock h.wal.nextLsn) 0 op
    modify fun h => { h with wal := wal }
    attempt result

/-! ## Reads -/

/-- The encoded record in a stored payload. -/
def unwrapPayload (payload : Bytes) : Except Error Bytes := do
  ensure (slotPrefix ≤ payload.length) (.corruption "stored slot is shorter than its prefix")
  let encoding ← Encoding.fromBit (payload.getD (slotPrefix - 1) 0)
  decompress E.lz4 encoding (payload.drop slotPrefix)

/-- Read one record out of the page it lives on. -/
def readAt (h : Heap) (collection : String) (loc : RecordLocation) : Except Error Record :=
  match h.collections.get collection with
  | none => .error (.noSuchCollection collection)
  | some c => do
    let page ← h.pool.get loc.page
    let payload ← page.get loc.slot
    let bytes ← unwrapPayload E payload
    c.codec.decode bytes

def readRows (h : Heap) (collection : String) :
    List (RecordId × RecordLocation) → Except Error (List (RecordId × Record))
  | [] => .ok []
  | (id, loc) :: rest => do
    let rec ← readAt E h collection loc
    let rows ← readRows h collection rest
    return (id, rec) :: rows

/-- Look a record up through whichever version `pick` chooses. -/
def getBy (pick : VersionChain → Option RecordLocation) (h : Heap) (collection : String)
    (id : RecordId) : Except Error (Option Record) :=
  match h.collections.get collection with
  | none => .error (.noSuchCollection collection)
  | some c =>
    match (c.directory.get id).bind pick with
    | none => .ok none
    | some loc => do
      let rec ← readAt E h collection loc
      return some rec

def rowLocations (pick : VersionChain → Option RecordLocation) (d : OrdMap RecordId VersionChain) :
    List (RecordId × RecordLocation) :=
  d.entries.filterMap fun e => (pick e.2).map fun loc => (e.1, loc)

/-- All records, in record-id order, through whichever versions `pick` chooses. -/
def scanBy (pick : VersionChain → Option RecordLocation) (h : Heap) (collection : String) :
    Except Error (List (RecordId × Record)) :=
  match h.collections.get collection with
  | none => .error (.noSuchCollection collection)
  | some c => readRows E h collection (rowLocations pick c.directory)

def getRecord (h : Heap) (collection : String) (id : RecordId) : Except Error (Option Record) :=
  getBy E (·.newest) h collection id

def scan (h : Heap) (collection : String) : Except Error (List (RecordId × Record)) :=
  scanBy E (·.newest) h collection

/-- Read as of a snapshot rather than as of now. -/
def getAt (h : Heap) (collection : String) (id : RecordId) (at' : ℕ) :
    Except Error (Option Record) :=
  getBy E (·.visibleAt at') h collection id

def scanAt (h : Heap) (collection : String) (at' : ℕ) : Except Error (List (RecordId × Record)) :=
  scanBy E (·.visibleAt at') h collection

def collectionNames (h : Heap) : List String := h.collections.keys.filter fun n => !isMigrationName n

def schemaOf (h : Heap) (collection : String) : Except Error Schema :=
  match h.collections.get collection with
  | none => .error (.noSuchCollection collection)
  | some c => .ok c.codec.schema

def nextId (h : Heap) (collection : String) : Except Error RecordId :=
  match h.collections.get collection with
  | none => .error (.noSuchCollection collection)
  | some c => .ok c.nextRecordId

end Heap

end Adabt.Storage
