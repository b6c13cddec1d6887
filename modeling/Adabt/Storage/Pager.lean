import Adabt.Library.OrdMap
import Adabt.Library.Program
import Adabt.Storage.Eviction
import Adabt.Storage.Page

/-! # The buffer pool, frame by frame

A file of pages behind a table of frames. A page whose bytes do not check out
reads as an error. The disk answers every write in turn: it takes it, or it fails
with an error and may leave something else where the page was. -/

set_option autoImplicit false

namespace Adabt.Storage.Pager
open Adabt.Core Adabt.Library

/-- What reading a page of the file gives. -/
abbrev Image := Except Error Page

inductive Attempt where
  | taken
  | failed (e : Error) (left : Option Image)

/-- The answer to each write, in the order they are asked. -/
abbrev Disk := ℕ → Attempt

structure Frame where
  page : Page
  dirty : Bool
  deriving DecidableEq

structure BufferPool (σ : Type) where
  pages : List Image
  /-- Writes asked of the disk so far. -/
  attempts : ℕ
  frames : OrdMap ℕ Frame
  capacity : ℕ
  policy : σ
  readAhead : Bool
  lastMiss : Option ℕ
  run : ℕ

variable {σ : Type}

abbrev PoolM (σ : Type) := EStateM Error (BufferPool σ)

def BufferPool.new (pages : List Image) (capacity : ℕ) (policy : σ) : BufferPool σ :=
  ⟨pages, 0, ∅, capacity, policy, false, none, 0⟩

/-! ## The file -/

def outOfRange (id count : ℕ) : Error :=
  .corruption ("page " ++ toString id ++ " out of range (file has " ++ toString count ++ ")")

/-- What a file past whose end a page is written reads as in between. -/
def gap : Image := .error (.corruption "page checksum mismatch")

def readPage (id : ℕ) : PoolM σ Page := do
  match (← get).pages[id]? with
  | some image => attempt image
  | none => throw (outOfRange id (← get).pages.length)

def readAll : List Image → Except Error (List Page)
  | [] => .ok []
  | image :: rest => do
    let page ← image
    let pages ← readAll rest
    return page :: pages

/-- Read consecutive pages, as many as there are. -/
def readPages (start count : ℕ) : PoolM σ (List Page) := do
  let s ← get
  if s.pages.length ≤ start then throw (outOfRange start s.pages.length)
  else
    let count := max (min count (s.pages.length - start)) 1
    attempt (readAll ((s.pages.drop start).take count))

/-- Put an image where a page is, or past the end. -/
def setImage (pages : List Image) (id : ℕ) (image : Image) : List Image :=
  if id < pages.length then pages.set id image
  else pages ++ List.replicate (id - pages.length) gap ++ [image]

variable (disk : Disk)

def writePage (id : ℕ) (page : Page) : PoolM σ Unit := do
  let n := (← get).attempts
  modify fun s => { s with attempts := n + 1 }
  match disk n with
  | .taken => modify fun s => { s with pages := setImage s.pages id (.ok page) }
  | .failed e left =>
    modify fun s => { s with pages := match left with
      | some image => s.pages.set id image
      | none => s.pages }
    throw e

/-- `PagedFile::allocate`: an empty page at the end. -/
def extend : PoolM σ ℕ := do
  let id := (← get).pages.length
  writePage disk id .new
  return id

/-- `PagedFile::truncate_to`. -/
def shorten (pages : ℕ) : PoolM σ Unit := do
  if (← get).pages.length ≤ pages then return ()
  else
    let n := (← get).attempts
    modify fun s => { s with attempts := n + 1 }
    match disk n with
    | .taken => modify fun s => { s with pages := s.pages.take pages }
    | .failed e _ => throw e

/-! ## Eviction -/

variable (P : EvictionPolicy σ)

def noVictim : Error :=
  .corruption "buffer pool is full but the eviction policy offered no victim"

def evictLoop : ℕ → PoolM σ Unit
  | 0 => throw noVictim
  | fuel + 1 => do
    match P.victim (← get).policy with
    | none => throw noVictim
    | some (victim, policy) =>
      modify fun s => { s with policy := policy }
      match (← get).frames.get victim with
      | some frame =>
        modify fun s => { s with frames := s.frames.erase victim }
        if frame.dirty then writePage disk victim frame.page else return ()
      -- The policy named a page the pool no longer holds; keep looking.
      | none => evictLoop fuel

/-- `evict_one`: the policy runs out of names before the loop runs out of fuel. -/
def evictOne : PoolM σ Unit := do evictLoop disk P ((P.names (← get).policy).length + 1)

/-- Evict while the table is too large; every round takes one frame out. -/
def evictWhile (crowded : ℕ → Bool) : ℕ → PoolM σ Unit
  | 0 => return ()
  | fuel + 1 => do
    if crowded (← get).frames.size then
      evictOne disk P
      evictWhile crowded fuel
    else return ()

def evictDown (crowded : ℕ → Bool) : PoolM σ Unit := do
  evictWhile disk P crowded ((← get).frames.size + 1)

def setCapacity (capacity : ℕ+) : PoolM σ Unit := do
  modify fun s => { s with capacity := capacity }
  evictDown disk P fun n => (capacity : ℕ) < n

/-! ## Faulting pages in -/

def runBeforeReadAhead : ℕ := 2

def readAheadPages : ℕ := 16

/-- How many pages to fetch for a miss, at most a quarter of the pool. -/
def readAheadSpan (id : ℕ) (s : BufferPool σ) : ℕ :=
  if s.readAhead = false ∨ s.run < runBeforeReadAhead then 1
  else max (min (min readAheadPages (max (s.capacity / 4) 1)) (s.pages.length - id)) 1

/-- A run of misses at adjacent addresses is what a scan looks like from in here. -/
def noteMiss (id : ℕ) (s : BufferPool σ) : BufferPool σ :=
  { s with
    run := if s.lastMiss.map (fun last => (last + 1) % 2 ^ 32) = some id then s.run + 1 else 1
    lastMiss := some id }

def touch (id : ℕ) (s : BufferPool σ) : BufferPool σ := { s with policy := P.touch id s.policy }

/-- Take a page that was read into the table, unless it is there: it may be dirty. -/
def admitPage (id : ℕ) (page : Page) (s : BufferPool σ) : BufferPool σ :=
  touch P id { s with frames := if s.frames.contains id then s.frames
    else s.frames.insert id ⟨page, false⟩ }

def admitAll : ℕ → List Page → BufferPool σ → BufferPool σ
  | _, [], s => s
  | id, page :: rest, s => admitAll (id + 1) rest (admitPage P id page s)

/-- Make room for the whole batch before reading any of it. -/
def makeRoom (ahead : ℕ) : PoolM σ Unit := do
  let capacity := (← get).capacity
  evictDown disk P fun n => capacity < n + ahead

def ensureResident (id : ℕ) : PoolM σ Unit := do
  if (← get).frames.contains id then modify (touch P id)
  else
    modify (noteMiss id)
    let ahead := readAheadSpan id (← get)
    makeRoom disk P ahead
    if 1 < ahead then
      let pages ← readPages id ahead
      modify (admitAll P id pages)
    else
      let page ← readPage id
      modify fun s => { s with frames := s.frames.insert id ⟨page, false⟩ }
    modify (touch P id)

/-- The frame that was just made resident. -/
def frameOf (id : ℕ) : PoolM σ Frame := do
  match (← get).frames.get id with
  | some f => return f
  | none => throw (.corruption "just made resident")

/-! ## The pool's calls -/

def get (id : ℕ) : PoolM σ Page := do
  ensureResident disk P id
  return (← frameOf id).page

/-- `get_mut`, and what its caller makes of the page. -/
def getMut (id : ℕ) (edit : Page → Page) : PoolM σ Unit := do
  ensureResident disk P id
  let f ← frameOf id
  modify fun s => { s with frames := s.frames.insert id ⟨edit f.page, true⟩ }

def allocate : PoolM σ ℕ := do
  let id ← extend disk
  if (← MonadState.get).capacity ≤ (← MonadState.get).frames.size then evictOne disk P
  modify fun s => touch P id { s with frames := s.frames.insert id ⟨.new, true⟩ }
  return id

def flushFrame (id : ℕ) : PoolM σ Unit := do
  let f ← frameOf id
  writePage disk id f.page
  modify fun s => { s with frames := s.frames.insert id { f with dirty := false } }

/-- Write every dirty frame back, in the order the table lists them. -/
def flushAll (order : List ℕ → List ℕ) : PoolM σ Unit := do
  let dirty := ((← MonadState.get).frames.entries.filter fun e => e.2.dirty).map Prod.fst
  forEach (flushFrame disk) (order dirty)

def truncateTo (order : List ℕ → List ℕ) (pages : ℕ) : PoolM σ Unit := do
  flushAll disk order
  modify fun s => { s with frames := s.frames.filter fun id _ => id < pages }
  shorten disk pages

def setReadAhead (on : Bool) (s : BufferPool σ) : BufferPool σ :=
  { s with readAhead := on, lastMiss := none, run := 0 }

end Adabt.Storage.Pager
