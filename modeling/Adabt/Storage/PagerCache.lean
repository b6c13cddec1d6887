import Adabt.Storage.Pager

/-! # The pool is a transparent cache

What a page holds is what its frame holds, or the file where it has no frame. No
call changes that except by the edit it makes, and no call leaves more frames than
the capacity, as long as every page that an eviction takes out is written. -/

set_option autoImplicit false

namespace Adabt.Storage.Pager
open Adabt.Core Adabt.Library

variable {σ : Type} {disk : Disk} {P : EvictionPolicy σ}

namespace BufferPool

/-- What a page holds. -/
def look (s : BufferPool σ) (id : ℕ) : Option Image :=
  match s.frames.get id with
  | some f => some (.ok f.page)
  | none => s.pages[id]?

/-- Frames are of pages of the file and named by the policy, and a clean one is as
the file has it. -/
structure Sound (P : EvictionPolicy σ) (s : BufferPool σ) : Prop where
  inFile : ∀ id f, s.frames.get id = some f → id < s.pages.length
  named : ∀ id f, s.frames.get id = some f → id ∈ P.names s.policy
  clean : ∀ id f, s.frames.get id = some f → f.dirty = false → s.pages[id]? = some (.ok f.page)

/-- Every page holds what it held. -/
structure Same (s s' : BufferPool σ) : Prop where
  look : s'.look = s.look
  count : s'.pages.length = s.pages.length
  capacity : s'.capacity = s.capacity

theorem Same.refl (s : BufferPool σ) : Same s s := ⟨rfl, rfl, rfl⟩

theorem Same.trans {s s1 s2 : BufferPool σ} (a : Same s s1) (b : Same s1 s2) : Same s s2 :=
  ⟨b.look.trans a.look, b.count.trans a.count, b.capacity.trans a.capacity⟩

theorem look_of_frame {s : BufferPool σ} {id : ℕ} {f : Frame} (h : s.frames.get id = some f) :
    s.look id = some (.ok f.page) := by
  rw [look, h]

theorem look_of_none {s : BufferPool σ} {id : ℕ} (h : s.frames.get id = none) :
    s.look id = s.pages[id]? := by
  rw [look, h]

end BufferPool

open BufferPool

theorem size_insert {m : OrdMap ℕ Frame} {id : ℕ} (f : Frame) (h : m.get id = none) :
    (m.insert id f).size = m.size + 1 := (m.insert_perm h).length_eq

theorem size_replace {m : OrdMap ℕ Frame} {id : ℕ} {f : Frame} (g : Frame)
    (h : m.get id = some f) : (m.insert id g).size = m.size := by
  have hback : (m.erase id).insert id g = m.insert id g := by
    ext k : 1
    simp only [OrdMap.get_insert, OrdMap.get_erase]
    split_ifs <;> rfl
  rw [← hback, size_insert g (OrdMap.get_erase_self m id)]
  exact (m.erase_perm h).length_eq.symm

theorem size_erase {m : OrdMap ℕ Frame} {id : ℕ} {f : Frame} (h : m.get id = some f) :
    (m.erase id).size + 1 = m.size := (m.erase_perm h).length_eq.symm

/-! ## Writing a page -/

/-- The state after a failed write. -/
def leaving (id : ℕ) (left : Option Image) (s : BufferPool σ) : BufferPool σ :=
  { s with
    attempts := s.attempts + 1
    pages := match left with
      | some image => s.pages.set id image
      | none => s.pages }

def written (id : ℕ) (page : Page) (s : BufferPool σ) : BufferPool σ :=
  { s with attempts := s.attempts + 1, pages := setImage s.pages id (.ok page) }

theorem writePage_spec (id : ℕ) (page : Page) (s : BufferPool σ) :
    Post (writePage disk id page) s (fun _ s' => s' = written id page s) fun e s' =>
      ∃ left, disk s.attempts = .failed e left ∧ s' = leaving id left s := by
  unfold writePage
  simp only [post_bind, post_get, post_modify]
  cases hd : disk s.attempts with
  | taken => exact rfl
  | failed e left =>
    simp only [post_bind, post_modify, post_throw]
    exact ⟨left, rfl, rfl⟩

theorem pages_written {s : BufferPool σ} {id : ℕ} (h : id < s.pages.length) (page : Page)
    (x : ℕ) : (written id page s).pages[x]? = if x = id then some (.ok page) else s.pages[x]? := by
  simp only [written, setImage, if_pos h, List.getElem?_set]
  by_cases hx : id = x
  · simp [hx.symm, h]
  · simp [hx, Ne.symm hx]

@[simp] theorem length_written {s : BufferPool σ} {id : ℕ} (h : id < s.pages.length) (page : Page) :
    (written id page s).pages.length = s.pages.length := by
  simp [written, setImage, h]

/-! ## Evicting -/

/-- The page that the policy gives up next and its frame, past names without one. -/
def nextVictim (P : EvictionPolicy σ) : ℕ → σ → OrdMap ℕ Frame → Option (ℕ × Frame × σ)
  | 0, _, _ => none
  | fuel + 1, policy, frames =>
    match P.victim policy with
    | none => none
    | some (victim, policy') =>
      match frames.get victim with
      | some f => some (victim, f, policy')
      | none => nextVictim P fuel policy' frames

theorem nextVictim_frame {fuel : ℕ} {policy policy' : σ} {frames : OrdMap ℕ Frame} {id : ℕ}
    {f : Frame} (h : nextVictim P fuel policy frames = some (id, f, policy')) :
    frames.get id = some f := by
  induction fuel generalizing policy with
  | zero => cases h
  | succ fuel ih =>
    rw [nextVictim] at h
    split at h
    · cases h
    · split at h
      · cases h
        assumption
      · exact ih h

/-- Only the victim and pages without a frame lose their names. -/
theorem nextVictim_names {fuel : ℕ} {policy policy' : σ} {frames : OrdMap ℕ Frame} {id : ℕ}
    {f : Frame} (h : nextVictim P fuel policy frames = some (id, f, policy')) {x : ℕ}
    (hx : x ≠ id) (hframe : (frames.get x).isSome) (hname : x ∈ P.names policy) :
    x ∈ P.names policy' := by
  induction fuel generalizing policy with
  | zero => cases h
  | succ fuel ih =>
    rw [nextVictim] at h
    split at h
    · cases h
    · rename_i v q hv
      have hmem := (P.victim_some hv).mem_iff.mp hname
      split at h
      · cases h
        exact (List.mem_cons.mp hmem).resolve_left hx
      · rename_i hnone
        apply ih h
        apply (List.mem_cons.mp hmem).resolve_left
        rintro rfl
        rw [hnone] at hframe
        cases hframe

theorem nextVictim_some {fuel : ℕ} {policy : σ} {frames : OrdMap ℕ Frame} {x : ℕ} {f : Frame}
    (hframe : frames.get x = some f) (hname : x ∈ P.names policy)
    (hfuel : (P.names policy).length < fuel) :
    ∃ r, nextVictim P fuel policy frames = some r := by
  induction fuel generalizing policy with
  | zero => omega
  | succ fuel ih =>
    rw [nextVictim]
    cases hv : P.victim policy with
    | none =>
      rw [P.victim_none hv] at hname
      cases hname
    | some r =>
      obtain ⟨v, q⟩ := r
      have hperm := P.victim_some hv
      cases hg : frames.get v with
      | some g => exact ⟨(v, g, q), by simp only [hg]⟩
      | none =>
        simp only [hg]
        have hne : x ≠ v := by
          rintro rfl
          rw [hframe] at hg
          cases hg
        apply ih
        · exact (List.mem_cons.mp (hperm.mem_iff.mp hname)).resolve_left hne
        · have hlen := hperm.length_eq
          rw [List.length_cons] at hlen
          omega

/-- Take a page's frame out, and write it if it is dirty. -/
def letGo (disk : Disk) (id : ℕ) (f : Frame) (policy : σ) : PoolM σ Unit := do
  modify fun s => { s with policy := policy, frames := s.frames.erase id }
  if f.dirty then writePage disk id f.page else return ()

theorem evictLoop_eq {fuel : ℕ} {s : BufferPool σ} {id : ℕ} {f : Frame} {policy : σ}
    (h : nextVictim P fuel s.policy s.frames = some (id, f, policy)) (Q : Unit → BufferPool σ → Prop)
    (R : Error → BufferPool σ → Prop) :
    Post (evictLoop disk P fuel) s Q R ↔ Post (letGo disk id f policy) s Q R := by
  induction fuel generalizing s with
  | zero => cases h
  | succ fuel ih =>
    rw [nextVictim] at h
    simp only [evictLoop, post_bind, post_get]
    cases hv : P.victim s.policy with
    | none => simp [hv] at h
    | some r =>
      obtain ⟨v, q⟩ := r
      simp only [hv] at h
      simp only [post_bind, post_modify, post_get]
      cases hg : s.frames.get v with
      | some g =>
        rw [hg] at h
        cases h
        simp only [letGo, post_bind, post_modify]
      | none =>
        rw [hg] at h
        exact ih (s := { s with policy := q }) h

/-- The page left the table, and the file has it. -/
structure Evicted (P : EvictionPolicy σ) (id : ℕ) (f : Frame) (policy : σ)
    (s s' : BufferPool σ) : Prop where
  sound : s'.Sound P
  same : Same s s'
  frames : s'.frames = s.frames.erase id
  policy : s'.policy = policy
  pages : ∀ x, s'.pages[x]? = if x = id then some (.ok f.page) else s.pages[x]?
  attempts : s'.attempts = s.attempts + if f.dirty then 1 else 0

theorem evicted_of {s s' : BufferPool σ} (hs : s.Sound P) {fuel : ℕ} {id : ℕ} {f : Frame}
    {policy : σ} (h : nextVictim P fuel s.policy s.frames = some (id, f, policy))
    (hframes : s'.frames = s.frames.erase id) (hpolicy : s'.policy = policy)
    (hpages : ∀ x, s'.pages[x]? = if x = id then some (.ok f.page) else s.pages[x]?)
    (hattempts : s'.attempts = s.attempts + if f.dirty then 1 else 0)
    (hlen : s'.pages.length = s.pages.length) (hcap : s'.capacity = s.capacity) :
    Evicted P id f policy s s' := by
  have hf := nextVictim_frame h
  have hkept : ∀ x g, s'.frames.get x = some g → x ≠ id ∧ s.frames.get x = some g := by
    intro x g hx
    rw [hframes, OrdMap.get_erase] at hx
    split_ifs at hx with hid
    exact ⟨hid, hx⟩
  have hsound : s'.Sound P := by
    constructor
    · intro x g hx
      rw [hlen]
      exact hs.inFile x g (hkept x g hx).2
    · intro x g hx
      have hg := (hkept x g hx).2
      rw [hpolicy]
      exact nextVictim_names h (hkept x g hx).1 (by rw [hg]; rfl) (hs.named x g hg)
    · intro x g hx hd
      rw [hpages, if_neg (hkept x g hx).1]
      exact hs.clean x g (hkept x g hx).2 hd
  have hlook : s'.look = s.look := by
    funext x
    rw [look, hframes, hpages, OrdMap.get_erase]
    by_cases hx : x = id
    · subst hx
      simp [look_of_frame hf]
    · simp [hx, look]
  exact ⟨hsound, ⟨hlook, hlen, hcap⟩, hframes, hpolicy, hpages, hattempts⟩

/-- The disk takes the next writes, this many of them. -/
def Takes (disk : Disk) (next count : ℕ) : Prop := ∀ i < count, disk (next + i) = .taken

theorem Takes.head {next count : ℕ} (h : Takes disk next count) (hc : 0 < count) :
    disk next = .taken := h 0 hc

theorem Takes.drop {next m n : ℕ} (h : Takes disk next (m + n)) : Takes disk (next + m) n := by
  intro i hi
  rw [Nat.add_assoc]
  exact h (m + i) (by omega)

theorem letGo_spec {s : BufferPool σ} (hs : s.Sound P) {fuel : ℕ} {id : ℕ} {f : Frame}
    {policy : σ} (h : nextVictim P fuel s.policy s.frames = some (id, f, policy))
    (hdisk : f.dirty = true → disk s.attempts = .taken) :
    Returns (letGo disk id f policy) s fun _ s' => Evicted P id f policy s s' := by
  have hf := nextVictim_frame h
  have hin := hs.inFile id f hf
  simp only [letGo, post_bind, post_modify]
  cases hd : f.dirty with
  | true =>
    apply (writePage_spec id f.page _).mono
    · rintro - s' rfl
      apply evicted_of hs h rfl rfl
      · exact pages_written (s := { s with policy := policy, frames := s.frames.erase id }) hin f.page
      · simp [written, hd]
      · exact length_written (s := { s with policy := policy, frames := s.frames.erase id })
          hin f.page
      · rfl
    · rintro e s' ⟨left, hfail, -⟩
      rw [hdisk hd] at hfail
      cases hfail
  | false =>
    apply evicted_of hs h rfl rfl
    · intro x
      split_ifs with hx
      · subst hx
        exact hs.clean x f hf hd
      · rfl
    · simp [hd]
    · rfl
    · rfl

/-- The pages that leave the table while it is too large, with their frames. -/
def victims (P : EvictionPolicy σ) (crowded : ℕ → Bool) :
    ℕ → σ → OrdMap ℕ Frame → List (ℕ × Frame)
  | 0, _, _ => []
  | fuel + 1, policy, frames =>
    if crowded frames.size then
      match nextVictim P ((P.names policy).length + 1) policy frames with
      | none => []
      | some (id, f, policy') => (id, f) :: victims P crowded fuel policy' (frames.erase id)
    else []

/-- The writes that letting these frames go takes. -/
def writes (vs : List (ℕ × Frame)) : ℕ := vs.countP fun v => v.2.dirty

/-- The bytes of the page check out. -/
def Readable (pages : List Image) (id : ℕ) : Prop :=
  ∃ page : Page, pages[id]? = some (.ok page)

/-- There is room, and the file has the pages that left the table. -/
structure Roomy (P : EvictionPolicy σ) (vs : List (ℕ × Frame)) (s s' : BufferPool σ) : Prop where
  sound : s'.Sound P
  same : Same s s'
  size : s'.frames.size ≤ s.frames.size
  absent : ∀ x, s.frames.get x = none → s'.frames.get x = none
  left : ∀ v ∈ vs, Readable s'.pages v.1
  readable : ∀ x, Readable s.pages x → Readable s'.pages x

theorem Roomy.refl {s : BufferPool σ} (hs : s.Sound P) : Roomy P [] s s :=
  ⟨hs, .refl s, le_rfl, fun _ h => h, fun _ h => (List.not_mem_nil h).elim, fun _ h => h⟩

theorem Roomy.cons {s s1 s' : BufferPool σ} {id : ℕ} {f : Frame} {policy : σ}
    {vs : List (ℕ × Frame)} (hf : s.frames.get id = some f) (a : Evicted P id f policy s s1)
    (b : Roomy P vs s1 s') : Roomy P ((id, f) :: vs) s s' := by
  have hsize := size_erase hf
  rw [← a.frames] at hsize
  constructor
  · exact b.sound
  · exact a.same.trans b.same
  · have := b.size
    omega
  · intro x hx
    apply b.absent
    rw [a.frames, OrdMap.get_erase, hx, ite_self]
  · rintro v hv
    rcases List.mem_cons.mp hv with rfl | hv
    · exact b.readable id ⟨f.page, by rw [a.pages, if_pos rfl]⟩
    · exact b.left v hv
  · rintro x ⟨page, hx⟩
    apply b.readable x
    by_cases hid : x = id
    · exact ⟨f.page, by rw [a.pages, if_pos hid]⟩
    · exact ⟨page, by rw [a.pages, if_neg hid, hx]⟩

theorem exists_frame_of_size {m : OrdMap ℕ Frame} (h : 0 < m.size) :
    ∃ id f, m.get id = some f := by
  obtain ⟨e, he⟩ := List.exists_mem_of_length_pos h
  exact ⟨e.1, e.2, (m.mem_entries e.1 e.2).mp he⟩

/-- A pool with frames names one of them. -/
theorem Sound.nextVictim {s : BufferPool σ} (hs : s.Sound P) (h : 0 < s.frames.size) :
    ∃ r, nextVictim P ((P.names s.policy).length + 1) s.policy s.frames = some r := by
  obtain ⟨id, f, hf⟩ := exists_frame_of_size h
  exact nextVictim_some hf (hs.named id f hf) (Nat.lt_succ_self _)

theorem evictOne_spec {s : BufferPool σ} (hs : s.Sound P) {id : ℕ} {f : Frame} {policy : σ}
    (h : nextVictim P ((P.names s.policy).length + 1) s.policy s.frames = some (id, f, policy))
    (hdisk : f.dirty = true → disk s.attempts = .taken) :
    Returns (evictOne disk P) s fun _ s' => Evicted P id f policy s s' := by
  simp only [evictOne, post_bind, post_get]
  rw [evictLoop_eq h]
  exact letGo_spec hs h hdisk

theorem evictWhile_spec {crowded : ℕ → Bool} (hover : crowded 0 = false) {fuel : ℕ}
    {s : BufferPool σ} (hs : s.Sound P) (hfuel : s.frames.size < fuel)
    (hdisk : Takes disk s.attempts (writes (victims P crowded fuel s.policy s.frames))) :
    Returns (evictWhile disk P crowded fuel) s fun _ s' =>
      Roomy P (victims P crowded fuel s.policy s.frames) s s' ∧ crowded s'.frames.size = false := by
  induction fuel generalizing s with
  | zero => omega
  | succ fuel ih =>
    simp only [evictWhile, post_bind, post_get]
    rw [victims] at hdisk ⊢
    by_cases ho : crowded s.frames.size = true
    · have hpos : 0 < s.frames.size := by
        rw [Nat.pos_iff_ne_zero]
        intro hz
        rw [hz, hover] at ho
        cases ho
      obtain ⟨⟨id, f, policy⟩, hv⟩ := Sound.nextVictim hs hpos
      have hf := nextVictim_frame hv
      simp only [if_pos ho, hv] at hdisk ⊢
      rw [writes, List.countP_cons, Nat.add_comm] at hdisk
      rw [post_bind]
      have hone : Returns (evictOne disk P) s fun _ s' => Evicted P id f policy s s' := by
        apply evictOne_spec hs hv
        intro hd
        rw [if_pos hd] at hdisk
        exact hdisk.head (by omega)
      apply hone.mono
      intro _ s1 he
      have hsize := size_erase hf
      rw [← he.frames] at hsize
      rw [← he.policy, ← he.frames] at hdisk ⊢
      apply (ih he.sound (by omega) _).mono
      · rintro _ s' ⟨hr, hsmall⟩
        rw [he.policy, he.frames] at hr
        rw [he.policy, he.frames]
        exact ⟨hr.cons hf he, hsmall⟩
      · rw [he.attempts]
        exact hdisk.drop
    · simp only [if_neg ho]
      exact ⟨.refl hs, by simpa using ho⟩

end Adabt.Storage.Pager
