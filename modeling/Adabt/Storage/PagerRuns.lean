import Adabt.Storage.PagerCalls

/-! # Runs of the pool

Beside the pool stands the list of what its pages hold: an edit that succeeded
changes its page, an allocation adds an empty one, a truncation drops the pages
past the new end, and a call that failed changes nothing. -/

set_option autoImplicit false

namespace Adabt.Storage.Pager
open Adabt.Core Adabt.Library BufferPool

variable {σ : Type} {disk : Disk} {P : EvictionPolicy σ}

/-- The pool holds these pages, in no more frames than it may have. -/
structure Mirrors (P : EvictionPolicy σ) (contents : List Image) (s : BufferPool σ) : Prop where
  sound : s.Sound P
  positive : 0 < s.capacity
  size : s.frames.size ≤ s.capacity
  count : s.pages.length = contents.length
  look : ∀ id, s.look id = contents[id]?

theorem Mirrors.kept {contents : List Image} {s s' : BufferPool σ} (h : Mirrors P contents s)
    (k : Kept P s s') : Mirrors P contents s' := by
  constructor
  · exact k.sound
  · rw [k.same.capacity]
    exact h.positive
  · exact k.size
  · rw [k.same.count]
    exact h.count
  · intro id
    rw [k.same.look]
    exact h.look id

theorem Mirrors.new {pages : List Image} {capacity : ℕ} (h : 0 < capacity) (policy : σ) :
    Mirrors P pages (.new pages capacity policy) := by
  have none : ∀ id f, (BufferPool.new pages capacity policy).frames.get id ≠ some f := by
    intro id f hf
    cases hf
  exact ⟨⟨fun id f hf => absurd hf (none id f), fun id f hf => absurd hf (none id f),
    fun id f hf => absurd hf (none id f)⟩, h, Nat.zero_le _, rfl, fun id => rfl⟩

/-- How a read of these pages is answered. -/
def answerOf (contents : List Image) (id : ℕ) : Except Error Page :=
  match contents[id]? with
  | some image => image
  | none => .error (outOfRange id contents.length)

theorem Mirrors.answer {contents : List Image} {s : BufferPool σ} (h : Mirrors P contents s)
    (id : ℕ) : s.answer id = answerOf contents id := by
  unfold BufferPool.answer answerOf
  cases hc : contents[id]? with
  | none => rw [h.look, h.count, hc]
  | some image => rw [h.look, hc]

/-! ## Edits -/

/-- Put another page into a frame, to be written later. -/
theorem Mirrors.edit {contents : List Image} {s : BufferPool σ} (h : Mirrors P contents s)
    {id : ℕ} {f : Frame} (hf : s.frames.get id = some f) (edit : Page → Page) :
    Mirrors P (contents.modify id (Except.map edit))
      { s with frames := s.frames.insert id ⟨edit f.page, true⟩ } := by
  have hcontents : contents[id]? = some (.ok f.page) := by rw [← h.look, look_of_frame hf]
  have hcases : ∀ x g, (s.frames.insert id ⟨edit f.page, true⟩).get x = some g →
      (x = id ∧ g = ⟨edit f.page, true⟩) ∨ s.frames.get x = some g := by
    intro x g hx
    rw [OrdMap.get_insert] at hx
    split_ifs at hx with hid
    · cases hx
      exact .inl ⟨hid, rfl⟩
    · exact .inr hx
  constructor
  · constructor
    · intro x g hx
      rcases hcases x g hx with ⟨rfl, -⟩ | hx
      · exact h.sound.inFile x f hf
      · exact h.sound.inFile x g hx
    · intro x g hx
      rcases hcases x g hx with ⟨rfl, -⟩ | hx
      · exact h.sound.named x f hf
      · exact h.sound.named x g hx
    · intro x g hx hd
      rcases hcases x g hx with ⟨-, rfl⟩ | hx
      · cases hd
      · exact h.sound.clean x g hx hd
  · exact h.positive
  · rw [size_replace _ hf]
    exact h.size
  · rw [List.length_modify]
    exact h.count
  · intro x
    by_cases hx : x = id
    · subst hx
      rw [List.getElem?_modify, hcontents, look_of_frame (f := ⟨edit f.page, true⟩)]
      · simp [Except.map]
      · exact OrdMap.get_insert_self ..
    · have hlook := h.look x
      rw [List.getElem?_modify, ← hlook, BufferPool.look, BufferPool.look,
        OrdMap.get_insert_ne _ _ hx]
      simp [Ne.symm hx]

theorem getMut_spec {contents : List Image} {s : BufferPool σ} (h : Mirrors P contents s)
    {id : ℕ} (hf : Fetches disk P id s) (edit : Page → Page) :
    Post (getMut disk P id edit) s
      (fun _ s' => Mirrors P (contents.modify id (Except.map edit)) s')
      fun _ s' => Mirrors P contents s' := by
  simp only [getMut, post_bind]
  apply (ensureResident_spec h.sound h.positive h.size hf).mono
  · rintro _ s1 ⟨hk, hres⟩
    apply (frameOf_spec hres).mono
    rintro f s' ⟨rfl, hframe⟩
    exact (h.kept hk).edit hframe edit
  · rintro e s' ⟨hk, -⟩
    exact h.kept hk

/-! ## Allocation -/

/-- The write that letting the next frame go takes is taken. -/
def EvictsOne (disk : Disk) (P : EvictionPolicy σ) (next : ℕ) (s : BufferPool σ) : Prop :=
  ∀ v, nextVictim P ((P.names s.policy).length + 1) s.policy s.frames = some v →
    v.2.1.dirty = true → disk next = .taken

theorem Sound.get_none {s : BufferPool σ} (hs : s.Sound P) {id : ℕ} (h : s.pages.length ≤ id) :
    s.frames.get id = none := by
  cases hf : s.frames.get id with
  | none => rfl
  | some f => exact absurd (hs.inFile id f hf) (Nat.not_lt.mpr h)

/-- An empty page past the end, which has no frame yet. -/
theorem Mirrors.extend {contents : List Image} {s : BufferPool σ} (h : Mirrors P contents s) :
    Mirrors P (contents ++ [.ok .new]) (written s.pages.length .new s) := by
  have hpages : (written s.pages.length .new s).pages = s.pages ++ [.ok .new] := by
    simp [written, setImage]
  constructor
  · constructor
    · intro x f hx
      have := h.sound.inFile x f hx
      rw [hpages, List.length_append]
      omega
    · exact h.sound.named
    · intro x f hx hd
      rw [hpages, List.getElem?_append_left (h.sound.inFile x f hx)]
      exact h.sound.clean x f hx hd
  · exact h.positive
  · exact h.size
  · rw [hpages, List.length_append, List.length_append, h.count]
  · intro x
    have hlook := h.look x
    by_cases hx : x < s.pages.length
    · rw [List.getElem?_append_left (h.count ▸ hx), ← hlook, BufferPool.look, BufferPool.look,
        hpages, List.getElem?_append_left hx]
      rfl
    · have hle := Nat.not_lt.mp hx
      have hnone : (written s.pages.length .new s).frames.get x = none := Sound.get_none h.sound hle
      rw [look_of_none hnone, hpages, List.getElem?_append_right hle,
        List.getElem?_append_right (h.count ▸ hle), h.count]

/-- A write that fails past the end changes nothing. -/
theorem Mirrors.extend_failed {contents : List Image} {s : BufferPool σ} (h : Mirrors P contents s)
    (left : Option Image) : Mirrors P contents (leaving s.pages.length left s) := by
  have hpages : (leaving s.pages.length left s).pages = s.pages := by
    cases left with
    | none => rfl
    | some image => exact List.set_eq_of_length_le le_rfl
  constructor
  · constructor
    · rw [hpages]
      exact h.sound.inFile
    · exact h.sound.named
    · rw [hpages]
      exact h.sound.clean
  · exact h.positive
  · exact h.size
  · rw [hpages]
    exact h.count
  · intro x
    rw [← h.look, BufferPool.look, hpages]
    rfl

/-- Give the last page of the file, which is empty, a frame. -/
theorem Mirrors.insertLast {contents : List Image} {s : BufferPool σ} {id : ℕ}
    (h : Mirrors P (contents ++ [.ok .new]) s) (hid : id = contents.length)
    (hn : s.frames.get id = none) (hsize : s.frames.size < s.capacity) :
    Mirrors P (contents ++ [.ok .new])
      (touch P id { s with frames := s.frames.insert id ⟨.new, true⟩ }) := by
  have hcases : ∀ x f, (s.frames.insert id ⟨.new, true⟩).get x = some f →
      (x = id ∧ f = ⟨.new, true⟩) ∨ s.frames.get x = some f := by
    intro x f hx
    rw [OrdMap.get_insert] at hx
    split_ifs at hx with hid
    · cases hx
      exact .inl ⟨hid, rfl⟩
    · exact .inr hx
  constructor
  · constructor
    · intro x f hx
      rcases hcases x f hx with ⟨rfl, -⟩ | hx
      · change x < s.pages.length
        rw [h.count, hid, List.length_append]
        exact Nat.lt_succ_self _
      · exact h.sound.inFile x f hx
    · intro x f hx
      rw [touch, P.mem_touch]
      rcases hcases x f hx with ⟨rfl, -⟩ | hx
      · exact .inl rfl
      · exact .inr (h.sound.named x f hx)
    · intro x f hx hd
      rcases hcases x f hx with ⟨-, rfl⟩ | hx
      · cases hd
      · exact h.sound.clean x f hx hd
  · exact h.positive
  · change (s.frames.insert id _).size ≤ s.capacity
    rw [size_insert _ hn]
    exact hsize
  · exact h.count
  · intro x
    rw [BufferPool.look, touch, OrdMap.get_insert, ← h.look]
    by_cases hx : x = id
    · subst hx
      rw [if_pos rfl, h.look, hid, List.getElem?_append_right le_rfl, Nat.sub_self]
      rfl
    · rw [if_neg hx]
      rfl

theorem Evicted.kept {s s' : BufferPool σ} {id : ℕ} {f : Frame} {policy : σ}
    (h : Evicted P id f policy s s') (hf : s.frames.get id = some f)
    (hsize : s.frames.size ≤ s.capacity) : Kept P s s' ∧ s'.frames.size < s'.capacity := by
  have hlt := size_erase hf
  rw [← h.frames] at hlt
  have hcap := h.same.capacity
  exact ⟨⟨h.sound, h.same, by omega⟩, by omega⟩

theorem allocate_spec {contents : List Image} {s : BufferPool σ} (h : Mirrors P contents s)
    (hdisk : s.capacity ≤ s.frames.size → EvictsOne disk P (s.attempts + 1) s) :
    Post (allocate disk P) s (fun _ s' => Mirrors P (contents ++ [.ok .new]) s')
      fun _ s' => Mirrors P contents s' := by
  simp only [allocate, extend, post_bind, post_get]
  apply (writePage_spec s.pages.length .new s).mono
  · rintro _ s1 rfl
    simp only [post_pure]
    have hext := h.extend
    have hnone : s.frames.get s.pages.length = none := Sound.get_none h.sound le_rfl
    split_ifs with hfull
    · rw [post_bind]
      have hpos : 0 < (written s.pages.length .new s).frames.size :=
        lt_of_lt_of_le h.positive hfull
      obtain ⟨⟨v, f, policy⟩, hv⟩ := Sound.nextVictim hext.sound hpos
      apply (evictOne_spec hext.sound hv (hdisk hfull _ hv)).mono
      intro _ s2 he
      obtain ⟨hk, hlt⟩ := he.kept (nextVictim_frame hv) hext.size
      simp only [post_bind, post_modify, post_pure]
      apply (hext.kept hk).insertLast h.count _ hlt
      rw [he.frames, OrdMap.get_erase]
      split_ifs
      · rfl
      · exact hnone
    · simp only [post_bind, post_modify, post_pure]
      exact hext.insertLast h.count hnone (Nat.not_le.mp hfull)
  · rintro e s1 ⟨left, -, rfl⟩
    exact h.extend_failed left

/-! ## Resizing -/

theorem setCapacity_spec {contents : List Image} {s : BufferPool σ} (h : Mirrors P contents s)
    (capacity : ℕ+)
    (hdisk : Takes disk s.attempts (writes
      (victims P (fun n => decide ((capacity : ℕ) < n)) (s.frames.size + 1) s.policy s.frames))) :
    Returns (setCapacity disk P capacity) s fun _ s' => Mirrors P contents s' := by
  simp only [setCapacity, evictDown, post_bind, post_modify, post_get]
  have hsound : ({ s with capacity := capacity } : BufferPool σ).Sound P :=
    ⟨h.sound.inFile, h.sound.named, h.sound.clean⟩
  apply (evictWhile_spec _ hsound (Nat.lt_succ_self _) hdisk).mono
  · rintro _ s' ⟨hr, hsmall⟩
    have hcap : s'.capacity = capacity := hr.same.capacity
    constructor
    · exact hr.sound
    · rw [hcap]
      exact capacity.pos
    · rw [hcap]
      simpa using hsmall
    · rw [hr.same.count]
      exact h.count
    · intro id
      rw [hr.same.look]
      exact h.look id
  · simp

/-! ## Writing back -/

/-- These pages, each once, are the dirty ones. -/
def DirtyIn (ids : List ℕ) (s : BufferPool σ) : Prop :=
  ids.Nodup ∧ ∀ id, id ∈ ids ↔ ∃ f, s.frames.get id = some f ∧ f.dirty = true

theorem mem_dirty {s : BufferPool σ} {id : ℕ} :
    id ∈ (s.frames.entries.filter fun e => e.2.dirty).map Prod.fst ↔
      ∃ f, s.frames.get id = some f ∧ f.dirty = true := by
  simp only [List.mem_map, List.mem_filter]
  constructor
  · rintro ⟨e, ⟨he, hd⟩, rfl⟩
    exact ⟨e.2, (s.frames.mem_entries e.1 e.2).mp he, hd⟩
  · rintro ⟨f, hf, hd⟩
    exact ⟨(id, f), ⟨(s.frames.mem_entries id f).mpr hf, hd⟩, rfl⟩

theorem dirtyIn_order {s : BufferPool σ} {order : List ℕ → List ℕ} (h : ∀ l, (order l).Perm l) :
    DirtyIn (order ((s.frames.entries.filter fun e => e.2.dirty).map Prod.fst)) s := by
  constructor
  · rw [(h _).nodup_iff]
    exact s.frames.keys_nodup.sublist (List.filter_sublist.map Prod.fst)
  · intro id
    rw [(h _).mem_iff]
    exact mem_dirty

/-- A dirty page is written, and is clean. -/
theorem Mirrors.clean {contents : List Image} {s : BufferPool σ} (h : Mirrors P contents s)
    {id : ℕ} {f : Frame} (hf : s.frames.get id = some f) :
    Mirrors P contents { written id f.page s with
      frames := s.frames.insert id { f with dirty := false } } := by
  have hin := h.sound.inFile id f hf
  have hcases : ∀ x g, (s.frames.insert id { f with dirty := false }).get x = some g →
      (x = id ∧ g = { f with dirty := false }) ∨ x ≠ id ∧ s.frames.get x = some g := by
    intro x g hx
    rw [OrdMap.get_insert] at hx
    split_ifs at hx with hid
    · cases hx
      exact .inl ⟨hid, rfl⟩
    · exact .inr ⟨hid, hx⟩
  constructor
  · constructor
    · intro x g hx
      simp only [length_written hin]
      rcases hcases x g hx with ⟨rfl, -⟩ | ⟨-, hx⟩
      · exact hin
      · exact h.sound.inFile x g hx
    · intro x g hx
      rcases hcases x g hx with ⟨rfl, -⟩ | ⟨-, hx⟩
      · exact h.sound.named x f hf
      · exact h.sound.named x g hx
    · intro x g hx hd
      simp only [pages_written hin]
      rcases hcases x g hx with ⟨rfl, rfl⟩ | ⟨hne, hx⟩
      · rw [if_pos rfl]
      · rw [if_neg hne]
        exact h.sound.clean x g hx hd
  · exact h.positive
  · change (s.frames.insert id _).size ≤ s.capacity
    rw [size_replace _ hf]
    exact h.size
  · rw [← h.count]
    exact length_written hin f.page
  · intro x
    rw [← h.look]
    simp only [BufferPool.look, pages_written hin, OrdMap.get_insert]
    by_cases hx : x = id
    · subst hx
      simp [hf]
    · simp [hx]

/-- A dirty page keeps its frame when writing it fails. -/
theorem Mirrors.failed {contents : List Image} {s : BufferPool σ} (h : Mirrors P contents s)
    {id : ℕ} {f : Frame} (hf : s.frames.get id = some f) (hd : f.dirty = true)
    (left : Option Image) : Mirrors P contents (leaving id left s) := by
  have hpages : ∀ x, x ≠ id → (leaving id left s).pages[x]? = s.pages[x]? := by
    intro x hx
    cases left with
    | none => rfl
    | some image => exact List.getElem?_set_ne (Ne.symm hx)
  have hlen : (leaving id left s).pages.length = s.pages.length := by
    cases left with
    | none => rfl
    | some image => exact List.length_set ..
  constructor
  · constructor
    · rw [hlen]
      exact h.sound.inFile
    · exact h.sound.named
    · intro x g hx hclean
      rw [hpages]
      · exact h.sound.clean x g hx hclean
      · rintro rfl
        rw [show s.frames.get x = some g from hx] at hf
        cases hf
        rw [hd] at hclean
        cases hclean
  · exact h.positive
  · exact h.size
  · rw [hlen]
    exact h.count
  · intro x
    rw [← h.look]
    by_cases hx : x = id
    · subst hx
      rw [look_of_frame hf]
      exact look_of_frame hf
    · rw [BufferPool.look, BufferPool.look, hpages x hx]
      rfl

theorem flushFrame_spec {contents : List Image} {s : BufferPool σ} {id : ℕ} {rest : List ℕ}
    (h : Mirrors P contents s) (hd : DirtyIn (id :: rest) s) :
    Post (flushFrame disk id) s (fun _ s' => Mirrors P contents s' ∧ DirtyIn rest s')
      fun _ s' => Mirrors P contents s' := by
  obtain ⟨hnodup, hmem⟩ := hd
  obtain ⟨f, hf, hdirty⟩ := (hmem id).mp (List.mem_cons_self ..)
  have hne := List.nodup_cons.mp hnodup
  simp only [flushFrame, post_bind]
  apply (frameOf_spec (by rw [hf]; rfl)).mono
  rintro g s' ⟨rfl, hg⟩
  rw [hf] at hg
  cases hg
  apply (writePage_spec id f.page s').mono
  · rintro _ s1 rfl
    rw [post_modify]
    refine ⟨h.clean hf, hne.2, fun x => ?_⟩
    change x ∈ rest ↔ ∃ g, (s'.frames.insert id { f with dirty := false }).get x = some g ∧ _
    rw [OrdMap.get_insert]
    by_cases hx : x = id
    · subst hx
      simp [hne.1]
    · rw [if_neg hx, ← hmem, List.mem_cons, or_iff_right hx]
  · rintro e s1 ⟨left, -, rfl⟩
    exact h.failed hf hdirty left

theorem flushAll_spec {contents : List Image} {s : BufferPool σ} (h : Mirrors P contents s)
    {order : List ℕ → List ℕ} (horder : ∀ l, (order l).Perm l) :
    Post (flushAll disk order) s (fun _ s' => Mirrors P contents s' ∧ DirtyIn [] s')
      fun _ s' => Mirrors P contents s' := by
  simp only [flushAll, post_bind, post_get]
  apply post_forEach (I := fun ids s => Mirrors P contents s ∧ DirtyIn ids s)
  · rintro id rest s' ⟨hm, hd⟩
    exact flushFrame_spec hm hd
  · exact ⟨h, dirtyIn_order horder⟩

/-! ## Truncation -/

theorem dirtyIn_nil {s : BufferPool σ} (h : DirtyIn [] s) {id : ℕ} {f : Frame}
    (hf : s.frames.get id = some f) : f.dirty = false := by
  by_contra hd
  have hmem := (h.2 id).mpr ⟨f, hf, by simpa using hd⟩
  cases hmem

/-- Frames that are clean can go. -/
theorem Mirrors.drop {contents : List Image} {s : BufferPool σ} (h : Mirrors P contents s)
    (hd : DirtyIn [] s) (keep : ℕ → Bool) :
    Mirrors P contents { s with frames := s.frames.filter fun id _ => keep id } := by
  have hkept : ∀ x f, (s.frames.filter fun id _ => keep id).get x = some f →
      s.frames.get x = some f := by
    intro x f hx
    rw [OrdMap.get_filter] at hx
    exact (Option.filter_eq_some_iff.mp hx).1
  constructor
  · constructor
    · exact fun x f hx => h.sound.inFile x f (hkept x f hx)
    · exact fun x f hx => h.sound.named x f (hkept x f hx)
    · exact fun x f hx => h.sound.clean x f (hkept x f hx)
  · exact h.positive
  · exact (List.length_filter_le _ _).trans h.size
  · exact h.count
  · intro x
    rw [← h.look, BufferPool.look, BufferPool.look]
    simp only [OrdMap.get_filter]
    cases hf : s.frames.get x with
    | none => rfl
    | some f =>
      rw [Option.filter_some]
      split_ifs
      · rfl
      · exact h.sound.clean x f hf (dirtyIn_nil hd hf)

/-- Pages without a frame can leave the end of the file. -/
theorem Mirrors.take {contents : List Image} {s : BufferPool σ} (h : Mirrors P contents s)
    {n : ℕ} (hframes : ∀ id f, s.frames.get id = some f → id < n) (attempts : ℕ) :
    Mirrors P (contents.take n) { s with attempts := attempts, pages := s.pages.take n } := by
  constructor
  · constructor
    · intro x f hx
      have hlt := hframes x f hx
      have hin := h.sound.inFile x f hx
      rw [List.length_take]
      omega
    · exact h.sound.named
    · intro x f hx hd
      rw [List.getElem?_take_of_lt (hframes x f hx)]
      exact h.sound.clean x f hx hd
  · exact h.positive
  · exact h.size
  · rw [List.length_take, List.length_take, h.count]
  · intro x
    by_cases hx : x < n
    · rw [List.getElem?_take_of_lt hx, ← h.look, BufferPool.look, BufferPool.look,
        List.getElem?_take_of_lt hx]
    · have hnone : s.frames.get x = none := by
        cases hf : s.frames.get x with
        | none => rfl
        | some f => exact absurd (hframes x f hf) hx
      have hle := Nat.not_lt.mp hx
      rw [look_of_none (s := { s with attempts := attempts, pages := s.pages.take n }) hnone,
        List.getElem?_take_eq_none hle, List.getElem?_take_eq_none hle]

theorem shorten_spec {contents : List Image} {s : BufferPool σ} (h : Mirrors P contents s)
    {n : ℕ} (hframes : ∀ id f, s.frames.get id = some f → id < n) :
    Post (shorten disk n) s (fun _ s' => Mirrors P (contents.take n) s')
      fun _ s' => Mirrors P contents s' := by
  simp only [shorten, post_bind, post_get]
  split_ifs with hle
  · rw [post_pure, List.take_of_length_le (h.count ▸ hle)]
    exact h
  · simp only [post_bind, post_get, post_modify]
    cases disk s.attempts with
    | taken => exact h.take hframes _
    | failed e left =>
      exact ⟨⟨h.sound.inFile, h.sound.named, h.sound.clean⟩, h.positive, h.size, h.count, h.look⟩

theorem truncateTo_spec {contents : List Image} {s : BufferPool σ} (h : Mirrors P contents s)
    {order : List ℕ → List ℕ} (horder : ∀ l, (order l).Perm l) (n : ℕ) :
    Post (truncateTo disk order n) s (fun _ s' => Mirrors P (contents.take n) s')
      fun _ s' => Mirrors P contents s' := by
  simp only [truncateTo, post_bind]
  apply (flushAll_spec h horder).mono
  · rintro _ s1 ⟨hm, hd⟩
    rw [post_modify]
    apply shorten_spec (hm.drop hd fun id => decide (id < n))
    intro id f hf
    simp only [OrdMap.get_filter, Option.filter_eq_some_iff, decide_eq_true_eq] at hf
    exact hf.2
  · exact fun _ _ h => h

/-! ## Runs -/

/-- An order to write pages in: the same pages, each as often. -/
abbrev Order := {order : List ℕ → List ℕ // ∀ l, (order l).Perm l}

inductive Command where
  | get (id : ℕ)
  | edit (id : ℕ) (edit : Page → Page)
  | allocate
  | setCapacity (capacity : ℕ+)
  | truncateTo (order : Order) (pages : ℕ)
  | flush (order : Order)
  | setReadAhead (on : Bool)

/-- Whether a call ends normally. -/
def succeeds {α : Type} (x : PoolM σ α) (s : BufferPool σ) : Bool :=
  match x s with
  | .ok _ _ => true
  | .error _ _ => false

def step (disk : Disk) (P : EvictionPolicy σ) : Command → BufferPool σ → BufferPool σ
  | .get id, s => exec (Pager.get disk P id) s
  | .edit id edit, s => exec (getMut disk P id edit) s
  | .allocate, s => exec (allocate disk P) s
  | .setCapacity capacity, s => exec (setCapacity disk P capacity) s
  | .truncateTo order pages, s => exec (truncateTo disk order.1 pages) s
  | .flush order, s => exec (flushAll disk order.1) s
  | .setReadAhead on, s => setReadAhead on s

/-- What the pages hold after a command. -/
def contentsAfter (disk : Disk) (P : EvictionPolicy σ) (s : BufferPool σ) (contents : List Image) :
    Command → List Image
  | .edit id edit =>
    if succeeds (getMut disk P id edit) s then contents.modify id (Except.map edit) else contents
  | .allocate => if succeeds (allocate disk P) s then contents ++ [.ok .new] else contents
  | .truncateTo order pages =>
    if succeeds (truncateTo disk order.1 pages) s then contents.take pages else contents
  | _ => contents

/-- The pool beside what its pages hold. -/
def stepBeside (disk : Disk) (P : EvictionPolicy σ) (c : Command)
    (x : BufferPool σ × List Image) : BufferPool σ × List Image :=
  (step disk P c x.1, contentsAfter disk P x.1 x.2 c)

/-- The disk takes what the command's evictions write, and what is read along with a
missing page can be read. -/
def Safe (disk : Disk) (P : EvictionPolicy σ) : Command → BufferPool σ → Prop
  | .get id, s => Fetches disk P id s
  | .edit id _, s => Fetches disk P id s
  | .allocate, s => s.capacity ≤ s.frames.size → EvictsOne disk P (s.attempts + 1) s
  | .setCapacity capacity, s => Takes disk s.attempts (writes
      (victims P (fun n => decide ((capacity : ℕ) < n)) (s.frames.size + 1) s.policy s.frames))
  | .truncateTo _ _, _ => True
  | .flush _, _ => True
  | .setReadAhead _, _ => True

/-- A call that changes what pages hold only if it succeeds. -/
theorem mirrors_exec {α : Type} {x : PoolM σ α} {s : BufferPool σ} {contents changed : List Image}
    (h : Post x s (fun _ s' => Mirrors P changed s') fun _ s' => Mirrors P contents s') :
    Mirrors P (if succeeds x s then changed else contents) (exec x s) := by
  unfold Post at h
  unfold exec succeeds
  cases hx : x s with
  | ok a s' => simpa [hx] using h
  | error e s' => simpa [hx] using h

theorem mirrors_step {contents : List Image} {s : BufferPool σ} (h : Mirrors P contents s)
    {c : Command} (hc : Safe disk P c s) :
    Mirrors P (contentsAfter disk P s contents c) (step disk P c s) := by
  cases c with
  | get id =>
    apply Post.exec
    apply (get_spec h.sound h.positive h.size hc).mono
    · exact fun _ _ hk => h.kept hk.1
    · exact fun _ _ hk => h.kept hk.1
  | edit id edit => exact mirrors_exec (getMut_spec h hc edit)
  | allocate => exact mirrors_exec (allocate_spec h hc)
  | setCapacity capacity => exact Post.exec ((setCapacity_spec h capacity hc).mono fun _ _ hm => hm)
  | truncateTo order pages => exact mirrors_exec (truncateTo_spec h order.2 pages)
  | flush order =>
    apply Post.exec
    apply (flushAll_spec h order.2).mono
    · exact fun _ _ hm => hm.1
    · exact fun _ _ hm => hm
  | setReadAhead on =>
    exact ⟨⟨h.sound.inFile, h.sound.named, h.sound.clean⟩, h.positive, h.size, h.count, h.look⟩

theorem mirrors_run {pages : List Image} {capacity : ℕ} (hcap : 0 < capacity) (policy : σ)
    {cs : List Command}
    (hg : Guarded (stepBeside disk P) (fun c x => Safe disk P c x.1)
      (.new pages capacity policy, pages) cs) :
    let x := run (stepBeside disk P) (.new pages capacity policy, pages) cs
    Mirrors P x.2 x.1 := by
  apply run_invariant (I := fun x : BufferPool σ × List Image => Mirrors P x.2 x.1) _ _ hg
  · exact fun c x h hc => mirrors_step h hc
  · exact .new hcap policy

/-- What a call answers, whatever it leaves behind. -/
def outcome {α : Type} (x : PoolM σ α) (s : BufferPool σ) : Except Error α :=
  match x s with
  | .ok a _ => .ok a
  | .error e _ => .error e

/-- While the disk takes what evictions write, every page holds what was last put
there, there are no more frames than the capacity, and a read is answered with
what its page holds. -/
theorem transparent (disk : Disk) (P : EvictionPolicy σ) (pages : List Image) (capacity : ℕ)
    (policy : σ) (cs : List Command) (hcap : 0 < capacity)
    (hg : Guarded (stepBeside disk P) (fun c x => Safe disk P c x.1)
      (.new pages capacity policy, pages) cs) :
    let x := run (stepBeside disk P) (.new pages capacity policy, pages) cs
    x.1.frames.size ≤ x.1.capacity ∧ (∀ id, x.1.look id = x.2[id]?) ∧
      ∀ id, Safe disk P (.get id) x.1 → outcome (Pager.get disk P id) x.1 = answerOf x.2 id := by
  intro x
  have hm : Mirrors P x.2 x.1 := mirrors_run hcap policy hg
  refine ⟨hm.size, hm.look, fun id hsafe => ?_⟩
  have hget := get_spec hm.sound hm.positive hm.size hsafe
  rw [hm.answer] at hget
  unfold Post at hget
  unfold outcome
  cases hx : Pager.get disk P id x.1 with
  | ok page s' =>
    rw [hx] at hget
    exact hget.2.symm
  | error e s' =>
    rw [hx] at hget
    exact hget.2.symm

/-- The page with one more payload, where it fits. -/
def withPayload (payload : Bytes) (page : Page) : Page :=
  match page.insert payload with
  | .ok (page', _) => page'
  | .error _ => page

/-- One frame, and an edited page that leaves it and is read again. -/
def oneFrame : List Command := [.allocate, .edit 0 (withPayload [7]), .allocate]

theorem transparent_oneFrame :
    let x := run (stepBeside (fun _ => .taken) Clock.policy) (.new [] 1 ⟨[], 0⟩, []) oneFrame
    x.1.frames.size ≤ x.1.capacity ∧ x.2 = [.ok (withPayload [7] .new), .ok .new] ∧
      outcome (Pager.get (fun _ => .taken) Clock.policy 0) x.1 = answerOf x.2 0 := by
  have h := transparent (fun _ => .taken) Clock.policy [] 1 ⟨[], 0⟩ oneFrame Nat.one_pos
    ⟨fun _ _ _ _ => rfl, .inl rfl, fun _ _ _ _ => rfl, trivial⟩
  exact ⟨h.1, rfl, h.2.2 0 (.inr ⟨fun _ _ => rfl, fun x hlt hle => absurd hle (Nat.not_lt.mpr hlt)⟩)⟩

/-- A disk that fails one write, and leaves the page as it was. -/
def failsAt (n : ℕ) : Disk := fun k => if k = n then .failed (.corruption "disk full") none else .taken

def lostEdit : BufferPool Clock × List Image :=
  run (stepBeside (failsAt 2) Clock.policy) (.new [] 1 ⟨[], 0⟩, []) oneFrame

def overFull : BufferPool Clock × List Image :=
  run (stepBeside (failsAt 3) Clock.policy) (.new [] 3 ⟨[], 0⟩, [])
    [.allocate, .allocate, .allocate, .setCapacity 1]

/-- A page whose write fails as it is evicted is lost, and a pool that cannot evict
keeps more frames than its new capacity. -/
theorem eviction_loses :
    (answerOf lostEdit.2 0).toOption = some (withPayload [7] .new) ∧
      (outcome (Pager.get (failsAt 2) Clock.policy 0) lostEdit.1).toOption = some .new ∧
      withPayload [7] .new ≠ .new ∧
      overFull.1.capacity < overFull.1.frames.size := by
  decide +kernel

end Adabt.Storage.Pager
