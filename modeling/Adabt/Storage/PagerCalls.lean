import Adabt.Storage.PagerCache

/-! # What the pool's calls do to its pages

A page that is fetched holds what it held. An edit and an allocation change the
one page they are about, and truncation the pages past the new end. -/

set_option autoImplicit false

namespace Adabt.Storage.Pager
open Adabt.Core Adabt.Library BufferPool

variable {σ : Type} {disk : Disk} {P : EvictionPolicy σ}

/-- What a page holds, as a read is answered. -/
def BufferPool.answer (s : BufferPool σ) (id : ℕ) : Except Error Page :=
  match s.look id with
  | some image => image
  | none => .error (outOfRange id s.pages.length)

theorem BufferPool.Same.answer {s s' : BufferPool σ} (h : Same s s') (id : ℕ) :
    s'.answer id = s.answer id := by
  simp only [BufferPool.answer, h.look, h.count]

/-- The pool holds what it held, in no more frames than it may have. -/
structure Kept (P : EvictionPolicy σ) (s s' : BufferPool σ) : Prop where
  sound : s'.Sound P
  same : Same s s'
  size : s'.frames.size ≤ s'.capacity

/-! ## Taking pages in -/

theorem touch_sound {s : BufferPool σ} (hs : s.Sound P) (id : ℕ) : (touch P id s).Sound P := by
  constructor
  · exact hs.inFile
  · intro x f hx
    exact (P.mem_touch id s.policy x).mpr (.inr (hs.named x f hx))
  · exact hs.clean

/-- Give a page of the file a clean frame. -/
def load (P : EvictionPolicy σ) (id : ℕ) (page : Page) (s : BufferPool σ) : BufferPool σ :=
  touch P id { s with frames := s.frames.insert id ⟨page, false⟩ }

theorem load_sound {s : BufferPool σ} (hs : s.Sound P) {id : ℕ} {page : Page}
    (hp : s.pages[id]? = some (.ok page)) : (load P id page s).Sound P := by
  have hcases : ∀ x f, (load P id page s).frames.get x = some f →
      (x = id ∧ f = ⟨page, false⟩) ∨ s.frames.get x = some f := by
    intro x f hx
    simp only [load, touch, OrdMap.get_insert] at hx
    split_ifs at hx with hid
    · cases hx
      exact .inl ⟨hid, rfl⟩
    · exact .inr hx
  constructor
  · intro x f hx
    rcases hcases x f hx with ⟨rfl, -⟩ | hx
    · exact (List.getElem?_eq_some_iff.mp hp).1
    · exact hs.inFile x f hx
  · intro x f hx
    rw [load, touch, P.mem_touch]
    rcases hcases x f hx with ⟨rfl, -⟩ | hx
    · exact .inl rfl
    · exact .inr (hs.named x f hx)
  · intro x f hx hd
    rcases hcases x f hx with ⟨rfl, rfl⟩ | hx
    · exact hp
    · exact hs.clean x f hx hd

theorem load_same {s : BufferPool σ} {id : ℕ} {page : Page} (hn : s.frames.get id = none)
    (hp : s.pages[id]? = some (.ok page)) : Same s (load P id page s) := by
  constructor
  · funext x
    simp only [look, load, touch, OrdMap.get_insert]
    by_cases hx : x = id
    · subst hx
      simp [hn, hp]
    · simp [hx]
  · rfl
  · rfl

/-- A page was taken in, and no page was let go. -/
structure TakenIn (P : EvictionPolicy σ) (n : ℕ) (s s' : BufferPool σ) : Prop where
  sound : s'.Sound P
  same : Same s s'
  size : s'.frames.size ≤ s.frames.size + n
  pages : s'.pages = s.pages
  kept : ∀ x, (s.frames.get x).isSome → (s'.frames.get x).isSome

theorem load_spec {s : BufferPool σ} (hs : s.Sound P) {id : ℕ} {page : Page}
    (hn : s.frames.get id = none) (hp : s.pages[id]? = some (.ok page)) :
    TakenIn P 1 s (load P id page s) := by
  constructor
  · exact load_sound hs hp
  · exact load_same hn hp
  · exact (size_insert _ hn).le
  · rfl
  · intro x hx
    simp only [load, touch, OrdMap.get_insert]
    split_ifs
    · rfl
    · exact hx

theorem load_resident (s : BufferPool σ) (id : ℕ) (page : Page) :
    ((load P id page s).frames.get id).isSome := by
  simp [load, touch]

theorem admitPage_spec {s : BufferPool σ} (hs : s.Sound P) {id : ℕ} {page : Page}
    (hp : s.pages[id]? = some (.ok page)) :
    TakenIn P 1 s (admitPage P id page s) ∧ ((admitPage P id page s).frames.get id).isSome := by
  unfold admitPage
  split_ifs with hc
  · refine ⟨⟨touch_sound hs id, ⟨rfl, rfl, rfl⟩, Nat.le_succ _, rfl, fun _ h => h⟩, ?_⟩
    exact hc
  · have hn : s.frames.get id = none := by simpa [OrdMap.contains] using hc
    exact ⟨load_spec hs hn hp, load_resident s id page⟩

theorem TakenIn.trans {m n : ℕ} {s s1 s2 : BufferPool σ} (a : TakenIn P m s s1)
    (b : TakenIn P n s1 s2) : TakenIn P (m + n) s s2 := by
  constructor
  · exact b.sound
  · exact a.same.trans b.same
  · have := a.size
    have := b.size
    omega
  · exact b.pages.trans a.pages
  · exact fun x hx => b.kept x (a.kept x hx)

theorem admitAll_spec {s : BufferPool σ} (hs : s.Sound P) {id : ℕ} {pages : List Page}
    (hp : ∀ i page, pages[i]? = some page → s.pages[id + i]? = some (.ok page)) :
    TakenIn P pages.length s (admitAll P id pages s) := by
  induction pages generalizing id s with
  | nil => exact ⟨hs, .refl s, le_rfl, rfl, fun _ h => h⟩
  | cons page rest ih =>
    have hone := (admitPage_spec hs (hp 0 page rfl)).1
    have hrest : TakenIn P rest.length (admitPage P id page s)
        (admitAll P (id + 1) rest (admitPage P id page s)) := by
      apply ih hone.sound
      intro i p hi
      rw [hone.pages, show id + 1 + i = id + (i + 1) by omega]
      exact hp (i + 1) p hi
    rw [List.length_cons, Nat.add_comm]
    exact hone.trans hrest

theorem admitAll_resident {s : BufferPool σ} (hs : s.Sound P) {id : ℕ} {pages : List Page}
    (hp : ∀ i page, pages[i]? = some page → s.pages[id + i]? = some (.ok page))
    (hpos : pages ≠ []) : ((admitAll P id pages s).frames.get id).isSome := by
  cases pages with
  | nil => exact absurd rfl hpos
  | cons page rest =>
    obtain ⟨hone, hres⟩ := admitPage_spec hs (hp 0 page rfl)
    apply (admitAll_spec hone.sound _).kept id hres
    intro i p hi
    rw [hone.pages, show id + 1 + i = id + (i + 1) by omega]
    exact hp (i + 1) p hi

/-! ## Reading the file -/

theorem readPage_spec (id : ℕ) (s : BufferPool σ) :
    Post (readPage id) s (fun page s' => s' = s ∧ s.pages[id]? = some (.ok page)) fun e s' =>
      s' = s ∧ (s.pages[id]? = some (.error e) ∨
        s.pages[id]? = none ∧ e = outOfRange id s.pages.length) := by
  simp only [readPage, post_bind, post_get]
  cases hp : s.pages[id]? with
  | none => exact ⟨rfl, .inr ⟨rfl, rfl⟩⟩
  | some image =>
    apply post_attempt
    · rintro page rfl
      exact ⟨rfl, rfl⟩
    · rintro e rfl
      exact ⟨rfl, .inl rfl⟩

theorem readAll_ok {images : List Image} {pages : List Page} (h : readAll images = .ok pages) :
    images = pages.map .ok := by
  induction images generalizing pages with
  | nil =>
    cases h
    rfl
  | cons image rest ih =>
    rw [readAll] at h
    cases image with
    | error e => cases h
    | ok page =>
      cases hr : readAll rest with
      | error e =>
        rw [hr] at h
        cases h
      | ok ps =>
        rw [hr] at h
        cases h
        rw [ih hr]
        rfl

theorem readAll_readable {images : List Image} (h : ∀ image ∈ images, ∃ page, image = .ok page) :
    ∃ pages, readAll images = .ok pages := by
  induction images with
  | nil => exact ⟨[], rfl⟩
  | cons image rest ih =>
    obtain ⟨page, rfl⟩ := h image (List.mem_cons_self ..)
    obtain ⟨pages, hp⟩ := ih fun i hi => h i (List.mem_cons_of_mem _ hi)
    exact ⟨page :: pages, by rw [readAll, hp]; rfl⟩

/-- Where the neighbours can be read, only the page itself can fail. -/
theorem readAll_error {image : Image} {rest : List Image} {e : Error}
    (hrest : ∀ i ∈ rest, ∃ page, i = .ok page) (h : readAll (image :: rest) = .error e) :
    image = .error e := by
  obtain ⟨pages, hp⟩ := readAll_readable hrest
  rw [readAll, hp] at h
  cases image with
  | error e' =>
    cases h
    rfl
  | ok page => cases h

theorem readPages_spec {s : BufferPool σ} {id n : ℕ} (hn : 1 < n) (hin : id + n ≤ s.pages.length)
    (hread : ∀ x, id < x → x < id + n → Readable s.pages x) :
    Post (readPages id n) s
      (fun pages s' => s' = s ∧ pages.length = n ∧
        ∀ i page, pages[i]? = some page → s.pages[id + i]? = some (.ok page))
      fun e s' => s' = s ∧ s.pages[id]? = some (.error e) := by
  have hcount : max (min n (s.pages.length - id)) 1 = n := by omega
  simp only [readPages, post_bind, post_get, if_neg (show ¬s.pages.length ≤ id by omega), hcount]
  have hlen : ((s.pages.drop id).take n).length = n := by simp; omega
  have hget : ∀ i < n, ((s.pages.drop id).take n)[i]? = s.pages[id + i]? := by
    intro i hi
    rw [List.getElem?_take_of_lt hi, List.getElem?_drop]
  apply post_attempt
  · intro pages hok
    have himages := readAll_ok hok
    have hpages : pages.length = n := by
      have hmap : (pages.map (Except.ok : Page → Image)).length = pages.length := List.length_map _
      rw [← hmap, ← himages, hlen]
    refine ⟨rfl, hpages, fun i page hi => ?_⟩
    have hi' : i < n := by
      rw [← hpages]
      exact (List.getElem?_eq_some_iff.mp hi).1
    rw [← hget i hi', himages, List.getElem?_map, hi]
    rfl
  · intro e herr
    cases himages : (s.pages.drop id).take n with
    | nil =>
      rw [himages] at hlen
      simp at hlen
      omega
    | cons image rest =>
      rw [himages] at herr
      refine ⟨rfl, ?_⟩
      have hhead := hget 0 (by omega)
      rw [himages] at hhead
      rw [← Nat.add_zero id, ← hhead, readAll_error _ herr]
      · rfl
      · intro i hi
        obtain ⟨k, hk⟩ := List.mem_iff_getElem?.mp hi
        have hkn : k + 1 < n := by
          have := (List.getElem?_eq_some_iff.mp hk).1
          rw [himages, List.length_cons] at hlen
          omega
        have hx := hget (k + 1) hkn
        rw [himages, List.getElem?_cons_succ, hk] at hx
        obtain ⟨page, hpage⟩ := hread (id + (k + 1)) (by omega) (by omega)
        rw [hpage] at hx
        exact ⟨page, by injection hx⟩

/-! ## Fetching a page -/

/-- What leaves the table to make room for so many more pages. -/
def room (P : EvictionPolicy σ) (ahead : ℕ) (s : BufferPool σ) : List (ℕ × Frame) :=
  victims P (fun n => decide (s.capacity < n + ahead)) (s.frames.size + 1) s.policy s.frames

/-- The disk takes the pages that make room for a missing one, and the neighbours
that are read along with it can be read. -/
structure Admits (disk : Disk) (P : EvictionPolicy σ) (id : ℕ) (s : BufferPool σ) : Prop where
  taken : Takes disk s.attempts (writes (room P (readAheadSpan id (noteMiss id s)) s))
  neighbours : ∀ x, id < x → x < id + readAheadSpan id (noteMiss id s) →
    x ∈ (room P (readAheadSpan id (noteMiss id s)) s).map Prod.fst ∨ Readable s.pages x

/-- The page is in the table, or it can be fetched. -/
def Fetches (disk : Disk) (P : EvictionPolicy σ) (id : ℕ) (s : BufferPool σ) : Prop :=
  s.frames.contains id = true ∨ Admits disk P id s

theorem readAheadSpan_le {s : BufferPool σ} (hcap : 0 < s.capacity) (id : ℕ) :
    readAheadSpan id s ≤ s.capacity := by
  unfold readAheadSpan
  split_ifs <;> omega

theorem readAheadSpan_inFile {s : BufferPool σ} {id : ℕ} (h : 1 < readAheadSpan id s) :
    id + readAheadSpan id s ≤ s.pages.length := by
  unfold readAheadSpan at h ⊢
  split_ifs at h ⊢ <;> omega

theorem makeRoom_spec {s : BufferPool σ} (hs : s.Sound P) {ahead : ℕ}
    (hahead : ahead ≤ s.capacity) (hdisk : Takes disk s.attempts (writes (room P ahead s))) :
    Returns (makeRoom disk P ahead) s fun _ s' =>
      Roomy P (room P ahead s) s s' ∧ s'.frames.size + ahead ≤ s.capacity := by
  simp only [makeRoom, evictDown, post_bind, post_get]
  apply (evictWhile_spec _ hs (Nat.lt_succ_self _) hdisk).mono
  · rintro _ s' ⟨hr, hsmall⟩
    exact ⟨hr, by simpa using hsmall⟩
  · simpa using hahead

theorem noteMiss_sound {s : BufferPool σ} (hs : s.Sound P) (id : ℕ) : (noteMiss id s).Sound P :=
  ⟨hs.inFile, hs.named, hs.clean⟩

theorem Kept.of_takenIn {s s1 s2 : BufferPool σ} {n : ℕ} (a : Same s s1) (b : TakenIn P n s1 s2)
    (h : s1.frames.size + n ≤ s.capacity) : Kept P s s2 := by
  have hsame := a.trans b.same
  refine ⟨b.sound, hsame, ?_⟩
  rw [hsame.capacity]
  exact b.size.trans h

theorem ensureResident_spec {s : BufferPool σ} (hs : s.Sound P) (hcap : 0 < s.capacity)
    (hsize : s.frames.size ≤ s.capacity) {id : ℕ} (hf : Fetches disk P id s) :
    Post (ensureResident disk P id) s
      (fun _ s' => Kept P s s' ∧ (s'.frames.get id).isSome)
      fun e s' => Kept P s s' ∧ s.answer id = .error e := by
  simp only [ensureResident, post_bind, post_get]
  split_ifs with hc
  · simp only [post_modify]
    exact ⟨⟨touch_sound hs id, ⟨rfl, rfl, rfl⟩, hsize⟩, hc⟩
  · have hadmits := hf.resolve_left hc
    have hnone : s.frames.get id = none := by simpa [OrdMap.contains] using hc
    simp only [post_bind, post_modify, post_get]
    set ahead := readAheadSpan id (noteMiss id s) with hahead
    have hspan : ahead ≤ _ := readAheadSpan_le (s := noteMiss id s) hcap id
    have hroom := makeRoom_spec (noteMiss_sound hs id) hspan hadmits.taken
    apply hroom.mono
    rintro _ s1 ⟨hr, hfits⟩
    change s1.frames.size + ahead ≤ s.capacity at hfits
    have hsame : Same s s1 := ⟨hr.same.look, hr.same.count, hr.same.capacity⟩
    have habsent := hr.absent id hnone
    have hanswer : s.answer id = s1.answer id := (hsame.answer id).symm
    have hlook := look_of_none habsent
    -- What an unsuccessful read leaves.
    have hkept : Kept P s s1 := by
      refine ⟨hr.sound, hsame, ?_⟩
      rw [hsame.capacity]
      exact (Nat.le_add_right _ _).trans hfits
    split_ifs with hone
    · rw [post_bind]
      have hin : id + ahead ≤ s1.pages.length := by
        rw [hsame.count]
        exact readAheadSpan_inFile (s := noteMiss id s) hone
      apply (readPages_spec hone hin _).mono
      · rintro pages s' ⟨rfl, hlen, hpages⟩
        simp only [post_bind, post_modify]
        have hne : pages ≠ [] := by
          rintro rfl
          simp at hlen
          omega
        have htaken := admitAll_spec hr.sound hpages
        have hsound := touch_sound htaken.sound id
        rw [hlen] at htaken
        have hsame' : Same s (touch P id (admitAll P id pages s')) :=
          hsame.trans ⟨htaken.same.look, htaken.same.count, htaken.same.capacity⟩
        refine ⟨⟨hsound, hsame', ?_⟩, admitAll_resident hr.sound hpages hne⟩
        rw [hsame'.capacity]
        exact htaken.size.trans hfits
      · rintro e s' ⟨rfl, herr⟩
        refine ⟨hkept, ?_⟩
        rw [hanswer, BufferPool.answer, hlook, herr]
      · intro x hlt hle
        rcases hadmits.neighbours x hlt hle with hx | hx
        · obtain ⟨v, hv, rfl⟩ := List.mem_map.mp hx
          exact hr.left v hv
        · exact hr.readable x hx
    · rw [post_bind]
      apply (readPage_spec id s1).mono
      · rintro page s' ⟨rfl, hp⟩
        simp only [post_bind, post_modify]
        have htaken := load_spec hr.sound habsent hp
        have hpos : 1 ≤ ahead := by
          rw [hahead]
          unfold readAheadSpan
          split_ifs <;> omega
        exact ⟨.of_takenIn hsame htaken (by omega), load_resident s' id page⟩
      · rintro e s' ⟨rfl, herr | ⟨hout, rfl⟩⟩
        · exact ⟨hkept, by rw [hanswer, BufferPool.answer, hlook, herr]⟩
        · exact ⟨hkept, by rw [hanswer, BufferPool.answer, hlook, hout]⟩

theorem frameOf_spec {s : BufferPool σ} {id : ℕ} (h : (s.frames.get id).isSome) :
    Returns (frameOf id) s fun f s' => s' = s ∧ s.frames.get id = some f := by
  obtain ⟨f, hf⟩ := Option.isSome_iff_exists.mp h
  simp only [frameOf, post_bind, post_get, hf]
  exact ⟨rfl, rfl⟩

theorem answer_of_frame {s : BufferPool σ} {id : ℕ} {f : Frame} (h : s.frames.get id = some f) :
    s.answer id = .ok f.page := by
  rw [BufferPool.answer, look_of_frame h]

theorem get_spec {s : BufferPool σ} (hs : s.Sound P) (hcap : 0 < s.capacity)
    (hsize : s.frames.size ≤ s.capacity) {id : ℕ} (hf : Fetches disk P id s) :
    Post (Pager.get disk P id) s (fun page s' => Kept P s s' ∧ s.answer id = .ok page)
      fun e s' => Kept P s s' ∧ s.answer id = .error e := by
  simp only [Pager.get, post_bind]
  apply (ensureResident_spec hs hcap hsize hf).mono
  · rintro _ s1 ⟨hk, hres⟩
    apply (frameOf_spec hres).mono
    rintro f s' ⟨rfl, hframe⟩
    refine ⟨hk, ?_⟩
    rw [← hk.same.answer id, answer_of_frame hframe]
  · exact fun _ _ h => h

end Adabt.Storage.Pager
