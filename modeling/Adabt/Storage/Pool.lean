import Adabt.Storage.Page

/-! # The heap file and its buffer pool

The pool answers for every page of the file. A page that changed since it was
last written back may be on disk as it is now or as it was after any earlier
change, so a frame keeps these earlier contents beside the current one. A file
found after a stop holds, for each page, one of them. -/

set_option autoImplicit false

namespace Adabt.Storage
open Adabt.Core Adabt.Library

structure Frame where
  page : Page
  earlier : List Page
  deriving DecidableEq

namespace Frame

def clean (page : Page) : Frame := ⟨page, []⟩

def write (f : Frame) (page : Page) : Frame := ⟨page, f.page :: f.earlier⟩

/-- What the file may hold for this page. -/
def images (f : Frame) : List Page := f.page :: f.earlier

end Frame

structure Pool where
  frames : List Frame
  deriving DecidableEq

namespace Pool

def pageCount (pool : Pool) : ℕ := pool.frames.length

def get (pool : Pool) (id : ℕ) : Except Error Page :=
  match pool.frames[id]? with
  | some f => .ok f.page
  | none => .error (.corruption ("page " ++ toString id ++ " out of range (file has " ++
      toString pool.pageCount ++ ")"))

/-- The page as an edit through `get_mut` left it. -/
def put (pool : Pool) (id : ℕ) (page : Page) : Pool := ⟨pool.frames.modify id (·.write page)⟩

/-- A new page is written to the file at once, empty. -/
def allocate (pool : Pool) : Pool × ℕ :=
  (⟨pool.frames ++ [.clean .new]⟩, pool.pageCount)

/-- Every dirty frame is written back. -/
def flush (pool : Pool) : Pool := ⟨pool.frames.map fun f => .clean f.page⟩

def truncateTo (pool : Pool) (pages : ℕ) : Pool := ⟨pool.flush.frames.take pages⟩

/-- A pool over a file with these pages. -/
def ofFile (pages : List Page) : Pool := ⟨pages.map .clean⟩

/-- The file may hold these pages. -/
def MayHold (pool : Pool) (pages : List Page) : Prop :=
  List.Forall₂ (fun f p => p ∈ f.images) pool.frames pages

/-- The payload at a location, if its slot is live. -/
def read (pool : Pool) (loc : RecordLocation) : Option Bytes :=
  pool.frames[loc.page]?.bind fun f => f.page.payloadAt loc.slot

/-- The file may hold the payload, in some slot of some page. -/
def Stores (pool : Pool) (b : Bytes) : Prop :=
  ∃ f ∈ pool.frames, ∃ p ∈ f.images, ∃ i, p.payloadAt i = some b

/-- Whatever the file holds for the page, the slot holds this payload. -/
def Steady (pool : Pool) (loc : RecordLocation) (b : Bytes) : Prop :=
  ∃ f, pool.frames[loc.page]? = some f ∧ ∀ p ∈ f.images, p.payloadAt loc.slot = some b

instance (pool : Pool) (pages : List Page) : Decidable (pool.MayHold pages) :=
  inferInstanceAs (Decidable (List.Forall₂ _ pool.frames pages))

theorem get_eq_ok {pool : Pool} {id : ℕ} {page : Page} :
    pool.get id = .ok page ↔ pool.frames[id]?.map Frame.page = some page := by
  unfold get
  cases pool.frames[id]? <;> simp

theorem get_of_lt {pool : Pool} {id : ℕ} (h : id < pool.pageCount) :
    ∃ page, pool.get id = .ok page := by
  rw [get, List.getElem?_eq_getElem h]
  exact ⟨_, rfl⟩

theorem lt_of_get {pool : Pool} {id : ℕ} {page : Page} (h : pool.get id = .ok page) :
    id < pool.pageCount := by
  by_contra hn
  rw [get, List.getElem?_eq_none (Nat.not_lt.mp hn)] at h
  cases h

theorem read_eq_get {pool : Pool} {id : ℕ} {page : Page} (h : pool.get id = .ok page) (i : ℕ) :
    pool.read ⟨id, i⟩ = page.payloadAt i := by
  rw [get_eq_ok, Option.map_eq_some_iff] at h
  obtain ⟨f, hf, rfl⟩ := h
  rw [read, hf, Option.bind_some]

theorem lt_of_read {pool : Pool} {loc : RecordLocation} {b : Bytes}
    (h : pool.read loc = some b) : loc.page < pool.pageCount := by
  by_contra hn
  rw [read, List.getElem?_eq_none (Nat.not_lt.mp hn)] at h
  cases h

@[simp] theorem pageCount_put (pool : Pool) (id : ℕ) (page : Page) :
    (pool.put id page).pageCount = pool.pageCount := by
  simp [put, pageCount]

@[simp] theorem pageCount_allocate (pool : Pool) :
    pool.allocate.1.pageCount = pool.pageCount + 1 := by
  simp [allocate, pageCount]

@[simp] theorem pageCount_flush (pool : Pool) : pool.flush.pageCount = pool.pageCount := by
  simp [flush, pageCount]

theorem pageCount_truncateTo (pool : Pool) (pages : ℕ) :
    (pool.truncateTo pages).pageCount = min pages pool.pageCount := by
  simp [truncateTo, flush, pageCount]

@[simp] theorem pageCount_ofFile (pages : List Page) : (ofFile pages).pageCount = pages.length := by
  simp [ofFile, pageCount]

theorem read_put {pool : Pool} {id : ℕ} {page : Page} (h : id < pool.pageCount)
    (loc : RecordLocation) :
    (pool.put id page).read loc =
      if loc.page = id then page.payloadAt loc.slot else pool.read loc := by
  simp only [read, put, List.getElem?_modify]
  by_cases hl : id = loc.page
  · subst hl
    have hf : pool.frames[loc.page]? = some pool.frames[loc.page] := List.getElem?_eq_getElem h
    simp [hf, Frame.write]
  · simp [hl, Ne.symm hl]

theorem read_allocate (pool : Pool) (loc : RecordLocation) :
    pool.allocate.1.read loc = pool.read loc := by
  simp only [read, allocate, List.getElem?_append]
  split
  · rfl
  · next h =>
    rw [List.getElem?_eq_none (Nat.not_lt.mp h), Option.bind_none]
    cases loc.page - pool.frames.length with
    | zero => rfl
    | succ n => rfl

theorem get_allocate (pool : Pool) : pool.allocate.1.get pool.allocate.2 = .ok .new := by
  rw [get_eq_ok]
  simp [allocate, pageCount, Frame.clean]

@[simp] theorem read_flush (pool : Pool) (loc : RecordLocation) :
    pool.flush.read loc = pool.read loc := by
  simp only [read, flush, List.getElem?_map]
  cases pool.frames[loc.page]? <;> rfl

theorem stores_put {pool : Pool} {id : ℕ} {page : Page} {b : Bytes}
    (h : (pool.put id page).Stores b) : pool.Stores b ∨ ∃ i, page.payloadAt i = some b := by
  obtain ⟨f, hf, p, hp, i, hb⟩ := h
  obtain ⟨j, hj⟩ := List.mem_iff_getElem?.mp hf
  simp only [put, List.getElem?_modify, Option.map_eq_map, Option.map_eq_some_iff] at hj
  obtain ⟨g, hg, rfl⟩ := hj
  have hgm : g ∈ pool.frames := List.mem_of_getElem? hg
  by_cases hid : id = j
  · rw [if_pos hid] at hp
    rcases List.mem_cons.mp hp with rfl | hp
    · exact .inr ⟨i, hb⟩
    · exact .inl ⟨g, hgm, p, hp, i, hb⟩
  · rw [if_neg hid] at hp
    exact .inl ⟨g, hgm, p, hp, i, hb⟩

theorem stores_allocate {pool : Pool} {b : Bytes} (h : pool.allocate.1.Stores b) :
    pool.Stores b := by
  obtain ⟨f, hf, p, hp, i, hb⟩ := h
  rcases List.mem_append.mp hf with hf | hf
  · exact ⟨f, hf, p, hp, i, hb⟩
  · rw [List.mem_singleton.mp hf] at hp
    rw [List.mem_singleton.mp hp] at hb
    cases hb

theorem Steady.put {pool : Pool} {id : ℕ} {page : Page} {loc : RecordLocation} {b : Bytes}
    (h : pool.Steady loc b) (hp : loc.page = id → page.payloadAt loc.slot = some b) :
    (pool.put id page).Steady loc b := by
  obtain ⟨f, hf, hb⟩ := h
  by_cases hid : id = loc.page
  · refine ⟨f.write page, by simp [Pool.put, hf, hid], fun p hm => ?_⟩
    rcases List.mem_cons.mp hm with rfl | hm
    · exact hp hid.symm
    · exact hb p hm
  · exact ⟨f, by simp [Pool.put, hf, hid], hb⟩

theorem Steady.allocate {pool : Pool} {loc : RecordLocation} {b : Bytes}
    (h : pool.Steady loc b) : pool.allocate.1.Steady loc b := by
  obtain ⟨f, hf, hb⟩ := h
  have hlt : loc.page < pool.frames.length := (List.getElem?_eq_some_iff.mp hf).1
  exact ⟨f, by simp [Pool.allocate, List.getElem?_append_left hlt, hf], hb⟩

theorem Steady.read {pool : Pool} {loc : RecordLocation} {b : Bytes} (h : pool.Steady loc b) :
    pool.read loc = some b := by
  obtain ⟨f, hf, hb⟩ := h
  rw [Pool.read, hf, Option.bind_some]
  exact hb f.page List.mem_cons_self

end Pool

end Adabt.Storage
