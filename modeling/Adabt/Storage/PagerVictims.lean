import Adabt.Storage.PagerRuns

/-! # Victims

Every frame has one name in the policy, so a pool with frames always finds one to let go,
and the frame that a call asked for is there when the call returns. Reads and writes may
fail at any point: a read finds whatever the file is said to hold at the time. -/

set_option autoImplicit false

namespace Adabt.Storage.Pager
open Adabt.Core Adabt.Library

variable {σ : Type} {disk : Disk} {P : EvictionPolicy σ} {W : σ → Prop} {E : Error → Prop}

/-- The errors that the disk and the file can give. -/
structure Outside (disk : Disk) (E : Error → Prop) : Prop where
  write : ∀ n e left, disk n = .failed e left → E e
  left : ∀ n e e', disk n = .failed e (some (.error e')) → E e'
  checksum : ∀ e, gap = .error e → E e
  range : ∀ id count, E (outOfRange id count)

/-- Every frame is named, the policy is in order, and what pages read as comes from outside. -/
structure Tracked (P : EvictionPolicy σ) (W : σ → Prop) (E : Error → Prop) (s : BufferPool σ) :
    Prop where
  named : ∀ id f, s.frames.get id = some f → id ∈ P.names s.policy
  orderly : W s.policy
  positive : 0 < s.capacity
  images : ∀ e, .error e ∈ s.pages → E e

/-- The call keeps the invariant, ends as `Q` says, and fails as the disk or the file do. -/
def Keeps (P : EvictionPolicy σ) (W : σ → Prop) (E : Error → Prop) {α : Type} (x : PoolM σ α)
    (s : BufferPool σ) (Q : α → BufferPool σ → Prop) : Prop :=
  Post x s (fun a s' => Tracked P W E s' ∧ Q a s') fun e s' => Tracked P W E s' ∧ E e

theorem Keeps.bind {α β : Type} {x : PoolM σ α} {f : α → PoolM σ β} {s : BufferPool σ}
    {Q : α → BufferPool σ → Prop} {R : β → BufferPool σ → Prop} (hx : Keeps P W E x s Q)
    (hf : ∀ a s', Tracked P W E s' → Q a s' → Keeps P W E (f a) s' R) :
    Keeps P W E (x >>= f) s R := by
  rw [Keeps, post_bind]
  exact hx.mono (fun a s' h => hf a s' h.1 h.2) fun _ _ h => h

theorem Keeps.imp {α : Type} {x : PoolM σ α} {s : BufferPool σ} {Q R : α → BufferPool σ → Prop}
    (hx : Keeps P W E x s Q) (h : ∀ a s', Tracked P W E s' → Q a s' → R a s') :
    Keeps P W E x s R :=
  hx.mono (fun a s' hs => ⟨hs.1, h a s' hs.1 hs.2⟩) fun _ _ hs => hs

/-! ## Writing -/

theorem images_setImage {pages : List Image} (hE : Outside disk E)
    (h : ∀ e, .error e ∈ pages → E e) (id : ℕ) (page : Page) :
    ∀ e, .error e ∈ setImage pages id (.ok page) → E e := by
  intro e he
  rw [setImage] at he
  split_ifs at he with hlt
  · rcases List.mem_or_eq_of_mem_set he with he | he
    · exact h e he
    · cases he
  · rcases List.mem_append.mp he with he | he
    · rcases List.mem_append.mp he with he | he
      · exact h e he
      · exact hE.checksum e (List.eq_of_mem_replicate he).symm
    · cases List.mem_singleton.mp he

theorem writePage_keeps (hE : Outside disk E) {s : BufferPool σ} (hs : Tracked P W E s) (id : ℕ)
    (page : Page) :
    Keeps P W E (writePage disk id page) s fun _ s' =>
      s'.frames = s.frames ∧ s'.policy = s.policy := by
  apply (writePage_spec id page s).mono
  · rintro _ s' rfl
    exact ⟨⟨hs.named, hs.orderly, hs.positive, images_setImage hE hs.images id page⟩, rfl, rfl⟩
  · rintro e s' ⟨left, hdisk, rfl⟩
    refine ⟨⟨hs.named, hs.orderly, hs.positive, fun e' he => ?_⟩, hE.write _ _ _ hdisk⟩
    cases left with
    | none => exact hs.images e' he
    | some image =>
      rcases List.mem_or_eq_of_mem_set he with he | rfl
      · exact hs.images e' he
      · exact hE.left _ _ _ hdisk

/-! ## Evicting -/

theorem nextVictim_orderly (hP : P.Orderly W) {fuel : ℕ} {policy policy' : σ}
    {frames : OrdMap ℕ Frame} {id : ℕ} {f : Frame}
    (h : nextVictim P fuel policy frames = some (id, f, policy')) (hpolicy : W policy) :
    W policy' := by
  induction fuel generalizing policy with
  | zero => cases h
  | succ fuel ih =>
    rw [nextVictim] at h
    split at h
    · cases h
    · rename_i v q hv
      have hq := hP.victim hpolicy hv
      split at h
      · cases h
        exact hq
      · exact ih h hq

theorem Tracked.nextVictim {s : BufferPool σ} (hs : Tracked P W E s) (h : 0 < s.frames.size) :
    ∃ r, Pager.nextVictim P ((P.names s.policy).length + 1) s.policy s.frames = some r := by
  obtain ⟨id, f, hf⟩ := exists_frame_of_size h
  exact nextVictim_some hf (hs.named id f hf) (Nat.lt_succ_self _)

theorem letGo_keeps (hP : P.Orderly W) (hE : Outside disk E) {s : BufferPool σ}
    (hs : Tracked P W E s) {fuel id : ℕ} {f : Frame} {policy : σ}
    (h : nextVictim P fuel s.policy s.frames = some (id, f, policy)) :
    Keeps P W E (letGo disk id f policy) s fun _ s' => s'.frames = s.frames.erase id := by
  have hleft : Tracked P W E { s with policy := policy, frames := s.frames.erase id } := by
    refine ⟨fun x g hx => ?_, nextVictim_orderly hP h hs.orderly, hs.positive, hs.images⟩
    change (s.frames.erase id).get x = some g at hx
    rw [OrdMap.get_erase] at hx
    split_ifs at hx with hid
    exact nextVictim_names h hid (by rw [hx]; rfl) (hs.named x g hx)
  rw [letGo, Keeps, post_bind, post_modify]
  split_ifs
  · exact (writePage_keeps hE hleft id f.page).imp fun _ _ _ hsame => hsame.1
  · exact ⟨hleft, rfl⟩

theorem evictOne_keeps (hP : P.Orderly W) (hE : Outside disk E) {s : BufferPool σ}
    (hs : Tracked P W E s) (hpos : 0 < s.frames.size) :
    Keeps P W E (evictOne disk P) s fun _ s' => s'.frames.size + 1 = s.frames.size := by
  obtain ⟨⟨id, f, policy⟩, hv⟩ := hs.nextVictim hpos
  rw [evictOne, Keeps, post_bind, post_get, evictLoop_eq hv]
  apply (letGo_keeps hP hE hs hv).imp
  intro _ s' _ hframes
  rw [hframes]
  exact size_erase (nextVictim_frame hv)

theorem evictWhile_keeps (hP : P.Orderly W) (hE : Outside disk E) {crowded : ℕ → Bool}
    (hover : crowded 0 = false) (fuel : ℕ) {s : BufferPool σ} (hs : Tracked P W E s) :
    Keeps P W E (evictWhile disk P crowded fuel) s fun _ _ => True := by
  induction fuel generalizing s with
  | zero => exact ⟨hs, trivial⟩
  | succ fuel ih =>
    rw [evictWhile, Keeps, post_bind, post_get]
    split_ifs with hcrowded
    · have hpos : 0 < s.frames.size := by
        rw [Nat.pos_iff_ne_zero]
        intro hzero
        rw [hzero, hover] at hcrowded
        cases hcrowded
      exact (evictOne_keeps hP hE hs hpos).bind fun _ s' hs' _ => ih hs'
    · exact ⟨hs, trivial⟩

theorem evictDown_keeps (hP : P.Orderly W) (hE : Outside disk E) {crowded : ℕ → Bool}
    (hover : crowded 0 = false) {s : BufferPool σ} (hs : Tracked P W E s) :
    Keeps P W E (evictDown disk P crowded) s fun _ _ => True := by
  rw [evictDown, Keeps, post_bind, post_get]
  exact evictWhile_keeps hP hE hover _ hs

/-! ## Reading -/

theorem readPage_keeps (hE : Outside disk E) {s : BufferPool σ} (hs : Tracked P W E s) (id : ℕ) :
    Keeps P W E (readPage id) s fun _ s' => s' = s := by
  apply (readPage_spec id s).mono
  · rintro page s' ⟨rfl, -⟩
    exact ⟨hs, rfl⟩
  · rintro e s' ⟨rfl, he | ⟨-, rfl⟩⟩
    · exact ⟨hs, hs.images e (List.mem_of_getElem? he)⟩
    · exact ⟨hs, hE.range _ _⟩

theorem mem_of_readAll {images : List Image} {e : Error} (h : readAll images = .error e) :
    .error e ∈ images := by
  induction images with
  | nil => cases h
  | cons image rest ih =>
    cases image with
    | error e' =>
      cases h
      exact List.mem_cons_self
    | ok page =>
      cases hrest : readAll rest with
      | error e' =>
        rw [readAll, hrest] at h
        cases h
        exact List.mem_cons_of_mem _ (ih hrest)
      | ok pages =>
        rw [readAll, hrest] at h
        cases h

theorem readPages_keeps (hE : Outside disk E) {s : BufferPool σ} (hs : Tracked P W E s)
    (start count : ℕ) :
    Keeps P W E (readPages start count) s fun pages s' => s' = s ∧ pages ≠ [] := by
  rw [readPages, Keeps, post_bind, post_get]
  split_ifs with hrange
  · exact ⟨hs, hE.range _ _⟩
  · apply post_attempt
    · intro pages hpages
      refine ⟨hs, rfl, ?_⟩
      rintro rfl
      have hlen := congrArg List.length (readAll_ok hpages)
      rw [List.length_take, List.length_drop, List.map_nil, List.length_nil] at hlen
      omega
    · intro e he
      exact ⟨hs, hs.images e (List.mem_of_mem_drop (List.mem_of_mem_take (mem_of_readAll he)))⟩

/-! ## Taking pages in -/

theorem Tracked.touch (hP : P.Orderly W) {s : BufferPool σ} (hs : Tracked P W E s) (id : ℕ) :
    Tracked P W E (touch P id s) :=
  ⟨fun x f hx => (P.mem_touch id s.policy x).mpr (.inr (hs.named x f hx)), hP.touch id hs.orderly,
    hs.positive, hs.images⟩

/-- A frame goes into the table together with its name. -/
theorem Tracked.insert (hP : P.Orderly W) {s : BufferPool σ} (hs : Tracked P W E s) (id : ℕ)
    (f : Frame) : Tracked P W E (Pager.touch P id { s with frames := s.frames.insert id f }) := by
  refine ⟨fun x g hx => ?_, hP.touch id hs.orderly, hs.positive, hs.images⟩
  change (s.frames.insert id f).get x = some g at hx
  change x ∈ P.names (P.touch id s.policy)
  rw [P.mem_touch]
  rw [OrdMap.get_insert] at hx
  split_ifs at hx with hid
  · exact .inl hid
  · exact .inr (hs.named x g hx)

theorem Tracked.admitPage (hP : P.Orderly W) {s : BufferPool σ} (hs : Tracked P W E s) (id : ℕ)
    (page : Page) : Tracked P W E (admitPage P id page s) := by
  rw [Pager.admitPage]
  split_ifs
  · exact hs.touch hP id
  · exact hs.insert hP id _

theorem Tracked.admitAll (hP : P.Orderly W) {s : BufferPool σ} (hs : Tracked P W E s) (id : ℕ)
    (pages : List Page) : Tracked P W E (admitAll P id pages s) := by
  induction pages generalizing id s with
  | nil => exact hs
  | cons page pages ih => exact ih (hs.admitPage hP id page) (id + 1)

theorem admitPage_kept (s : BufferPool σ) (id : ℕ) (page : Page) {x : ℕ}
    (hx : x = id ∨ (s.frames.get x).isSome) : ((admitPage P id page s).frames.get x).isSome := by
  rw [admitPage]
  change (OrdMap.get (if s.frames.contains id then s.frames else _) x).isSome
  split_ifs with hc
  · rcases hx with rfl | hx
    · exact hc
    · exact hx
  · rw [OrdMap.get_insert]
    split_ifs with hid
    · rfl
    · exact hx.resolve_left hid

theorem admitAll_kept (s : BufferPool σ) (id : ℕ) (pages : List Page) {x : ℕ}
    (hx : (s.frames.get x).isSome) : ((admitAll P id pages s).frames.get x).isSome := by
  induction pages generalizing id s with
  | nil => exact hx
  | cons page pages ih => exact ih _ _ (admitPage_kept s id page (.inr hx))

theorem ensureResident_keeps (hP : P.Orderly W) (hE : Outside disk E) {s : BufferPool σ}
    (hs : Tracked P W E s) (id : ℕ) :
    Keeps P W E (ensureResident disk P id) s fun _ s' => (s'.frames.get id).isSome := by
  rw [ensureResident, Keeps, post_bind, post_get]
  split_ifs with hc
  · exact ⟨hs.touch hP id, hc⟩
  rw [post_bind, post_modify, post_bind, post_get]
  have hmiss : Tracked P W E (noteMiss id s) := ⟨hs.named, hs.orderly, hs.positive, hs.images⟩
  have hspan := readAheadSpan_le hmiss.positive id
  dsimp only
  generalize readAheadSpan id (noteMiss id s) = ahead at hspan
  have hroom : Keeps P W E (makeRoom disk P ahead) (noteMiss id s) fun _ _ => True := by
    rw [makeRoom, Keeps, post_bind, post_get]
    exact evictDown_keeps hP hE (decide_eq_false (by omega)) hmiss
  apply hroom.bind
  intro _ s1 hs1 _
  split_ifs
  · apply (readPages_keeps hE hs1 id ahead).bind
    rintro pages s2 hs2 ⟨rfl, hne⟩
    cases pages with
    | nil => exact absurd rfl hne
    | cons page pages =>
      refine ⟨(hs2.admitAll hP id (page :: pages)).touch hP id, ?_⟩
      exact admitAll_kept _ (id + 1) pages (admitPage_kept s2 id page (.inl rfl))
  · apply (readPage_keeps hE hs1 id).bind
    rintro page s2 hs2 rfl
    refine ⟨hs2.insert hP id ⟨page, false⟩, ?_⟩
    change ((s2.frames.insert id _).get id).isSome
    rw [OrdMap.get_insert_self]
    rfl

/-! ## The pool's calls -/

theorem frameOf_keeps {s : BufferPool σ} (hs : Tracked P W E s) {id : ℕ}
    (h : (s.frames.get id).isSome) :
    Keeps P W E (frameOf id) s fun f s' => s' = s ∧ s.frames.get id = some f :=
  (frameOf_spec h).mono fun _ _ hf => ⟨hf.1 ▸ hs, hf⟩

/-- An edit of a frame that is there. -/
theorem Tracked.edit {s : BufferPool σ} (hs : Tracked P W E s) {id : ℕ} {f : Frame}
    (hf : s.frames.get id = some f) (g : Frame) :
    Tracked P W E { s with frames := s.frames.insert id g } := by
  refine ⟨fun x k hx => ?_, hs.orderly, hs.positive, hs.images⟩
  change (s.frames.insert id g).get x = some k at hx
  rw [OrdMap.get_insert] at hx
  split_ifs at hx with hid
  · exact hid ▸ hs.named id f hf
  · exact hs.named x k hx

theorem get_keeps (hP : P.Orderly W) (hE : Outside disk E) {s : BufferPool σ}
    (hs : Tracked P W E s) (id : ℕ) :
    Keeps P W E (Pager.get disk P id) s fun page s' =>
      ∃ f, s'.frames.get id = some f ∧ f.page = page := by
  apply (ensureResident_keeps hP hE hs id).bind
  intro _ s1 hs1 hresident
  apply (frameOf_keeps hs1 hresident).bind
  rintro f s2 hs2 ⟨rfl, hf⟩
  exact ⟨hs2, f, hf, rfl⟩

theorem getMut_keeps (hP : P.Orderly W) (hE : Outside disk E) {s : BufferPool σ}
    (hs : Tracked P W E s) (id : ℕ) (edit : Page → Page) :
    Keeps P W E (getMut disk P id edit) s fun _ s' => (s'.frames.get id).isSome := by
  apply (ensureResident_keeps hP hE hs id).bind
  intro _ s1 hs1 hresident
  apply (frameOf_keeps hs1 hresident).bind
  rintro f s2 hs2 ⟨rfl, hf⟩
  refine ⟨hs2.edit hf ⟨edit f.page, true⟩, ?_⟩
  change ((s2.frames.insert id _).get id).isSome
  rw [OrdMap.get_insert_self]
  rfl

theorem extend_keeps (hE : Outside disk E) {s : BufferPool σ} (hs : Tracked P W E s) :
    Keeps P W E (extend disk) s fun _ _ => True := by
  rw [extend, Keeps, post_bind, post_get]
  apply (writePage_keeps hE hs _ _).bind
  exact fun _ s' hs' _ => ⟨hs', trivial⟩

theorem allocate_keeps (hP : P.Orderly W) (hE : Outside disk E) {s : BufferPool σ}
    (hs : Tracked P W E s) : Keeps P W E (allocate disk P) s fun _ _ => True := by
  apply (extend_keeps hE hs).bind
  intro id s1 hs1 _
  rw [Keeps, post_bind, post_get, post_bind, post_get]
  split_ifs with hfull
  · apply (evictOne_keeps hP hE hs1 (hs1.positive.trans_le hfull)).bind
    exact fun _ s2 hs2 _ => ⟨hs2.insert hP id _, trivial⟩
  · exact ⟨hs1.insert hP id _, trivial⟩

theorem setCapacity_keeps (hP : P.Orderly W) (hE : Outside disk E) {s : BufferPool σ}
    (hs : Tracked P W E s) (capacity : ℕ+) :
    Keeps P W E (setCapacity disk P capacity) s fun _ _ => True := by
  rw [setCapacity, Keeps, post_bind, post_modify]
  apply evictDown_keeps hP hE (decide_eq_false (Nat.not_lt_zero _))
  exact ⟨hs.named, hs.orderly, capacity.pos, hs.images⟩

/-- A frame that is there stays there while it is written back. -/
theorem flushFrame_keeps (hE : Outside disk E) {s : BufferPool σ} (hs : Tracked P W E s) {id : ℕ}
    (h : (s.frames.get id).isSome) :
    Keeps P W E (flushFrame disk id) s fun _ s' =>
      ∀ x, (s.frames.get x).isSome → (s'.frames.get x).isSome := by
  apply (frameOf_keeps hs h).bind
  rintro f s1 hs1 ⟨rfl, hf⟩
  apply (writePage_keeps hE hs1 id f.page).bind
  rintro _ s2 hs2 ⟨hframes, -⟩
  refine ⟨hs2.edit (hframes ▸ hf) _, fun x hx => ?_⟩
  change ((s2.frames.insert id _).get x).isSome
  rw [OrdMap.get_insert, hframes]
  split_ifs
  · rfl
  · exact hx

theorem flushAll_keeps (hE : Outside disk E) {s : BufferPool σ} (hs : Tracked P W E s)
    {order : List ℕ → List ℕ} (horder : ∀ l, (order l).Perm l) :
    Keeps P W E (flushAll disk order) s fun _ _ => True := by
  rw [flushAll, Keeps, post_bind, post_get]
  apply (post_forEach (I := fun ids s' => Tracked P W E s' ∧ ∀ x ∈ ids, (s'.frames.get x).isSome)
    _ _ _ ⟨hs, ?_⟩).mono
  · exact fun _ _ h => ⟨h.1, trivial⟩
  · exact fun _ _ h => h
  · intro x xs s' h
    apply (flushFrame_keeps hE h.1 (h.2 x List.mem_cons_self)).mono
    · exact fun _ s'' hs'' => ⟨hs''.1, fun y hy => hs''.2 y (h.2 y (List.mem_cons_of_mem _ hy))⟩
    · exact fun _ _ hs'' => hs''
  · intro x hx
    obtain ⟨f, hf, -⟩ := mem_dirty.mp ((horder _).mem_iff.mp hx)
    rw [hf]
    rfl

theorem shorten_keeps (hE : Outside disk E) {s : BufferPool σ} (hs : Tracked P W E s)
    (pages : ℕ) : Keeps P W E (shorten disk pages) s fun _ _ => True := by
  rw [shorten, Keeps, post_bind, post_get]
  split_ifs
  · exact ⟨hs, trivial⟩
  · rw [post_bind, post_get, post_bind, post_modify]
    cases hd : disk s.attempts with
    | taken =>
      exact ⟨⟨hs.named, hs.orderly, hs.positive, fun e he => hs.images e (List.mem_of_mem_take he)⟩,
        trivial⟩
    | failed e left => exact ⟨⟨hs.named, hs.orderly, hs.positive, hs.images⟩, hE.write _ _ _ hd⟩

/-- Names without a frame are left behind, frames without a name are not. -/
theorem truncateTo_keeps (hE : Outside disk E) {s : BufferPool σ} (hs : Tracked P W E s)
    {order : List ℕ → List ℕ} (horder : ∀ l, (order l).Perm l) (pages : ℕ) :
    Keeps P W E (truncateTo disk order pages) s fun _ _ => True := by
  apply (flushAll_keeps hE hs horder).bind
  intro _ s1 hs1 _
  rw [Keeps, post_bind, post_modify]
  apply shorten_keeps hE
  refine ⟨fun x f hx => ?_, hs1.orderly, hs1.positive, hs1.images⟩
  change (s1.frames.filter fun id _ => id < pages).get x = some f at hx
  rw [OrdMap.get_filter] at hx
  exact hs1.named x f (Option.filter_eq_some_iff.mp hx).1

/-! ## Runs -/

/-- What a call fails with, if it does. -/
def errorOf {α : Type} (x : PoolM σ α) (s : BufferPool σ) : Option Error :=
  match x s with
  | .ok _ _ => none
  | .error e _ => some e

def callError (disk : Disk) (P : EvictionPolicy σ) : Command → BufferPool σ → Option Error
  | .get id, s => errorOf (Pager.get disk P id) s
  | .edit id edit, s => errorOf (getMut disk P id edit) s
  | .allocate, s => errorOf (allocate disk P) s
  | .setCapacity capacity, s => errorOf (setCapacity disk P capacity) s
  | .truncateTo order pages, s => errorOf (truncateTo disk order.1 pages) s
  | .flush order, s => errorOf (flushAll disk order.1) s
  | .setReadAhead _, _ => none

theorem Keeps.call {α : Type} {x : PoolM σ α} {s : BufferPool σ} {Q : α → BufferPool σ → Prop}
    (h : Keeps P W E x s Q) : Tracked P W E (exec x s) ∧ ∀ e, errorOf x s = some e → E e := by
  unfold Keeps Post at h
  unfold exec errorOf
  cases hx : x s with
  | ok a s' =>
    rw [hx] at h
    exact ⟨h.1, fun e he => by cases he⟩
  | error e s' =>
    rw [hx] at h
    exact ⟨h.1, fun e' he => Option.some.inj he ▸ h.2⟩

theorem step_keeps (hP : P.Orderly W) (hE : Outside disk E) {s : BufferPool σ}
    (hs : Tracked P W E s) (c : Command) :
    Tracked P W E (step disk P c s) ∧ ∀ e, callError disk P c s = some e → E e := by
  cases c with
  | get id => exact (get_keeps hP hE hs id).call
  | edit id edit => exact (getMut_keeps hP hE hs id edit).call
  | allocate => exact (allocate_keeps hP hE hs).call
  | setCapacity capacity => exact (setCapacity_keeps hP hE hs capacity).call
  | truncateTo order pages => exact (truncateTo_keeps hE hs order.2 pages).call
  | flush order => exact (flushAll_keeps hE hs order.2).call
  | setReadAhead on =>
    exact ⟨⟨hs.named, hs.orderly, hs.positive, hs.images⟩, fun e he => by cases he⟩

/-- A command, and what the pages of the file read as while it runs. -/
abbrev Step := List Image × Command

def found (images : List Image) (s : BufferPool σ) : BufferPool σ := { s with pages := images }

def stepReading (disk : Disk) (P : EvictionPolicy σ) (c : Step) (s : BufferPool σ) : BufferPool σ :=
  step disk P c.2 (found c.1 s)

/-- The errors that a disk and a file with these contents can give. -/
inductive Given (disk : Disk) (files : List (List Image)) : Error → Prop where
  | write {n : ℕ} {e : Error} {left : Option Image} (h : disk n = .failed e left) :
      Given disk files e
  | left {n : ℕ} {e e' : Error} (h : disk n = .failed e (some (.error e'))) : Given disk files e'
  | image {images : List Image} {e : Error} (h : images ∈ files) (he : .error e ∈ images) :
      Given disk files e
  | checksum : Given disk files (.corruption "page checksum mismatch")
  | range (id count : ℕ) : Given disk files (outOfRange id count)

theorem outside_given (disk : Disk) (files : List (List Image)) :
    Outside disk (Given disk files) where
  write := fun _ _ _ h => .write h
  left := fun _ _ _ h => .left h
  checksum := by
    intro e h
    cases h
    exact .checksum
  range := .range

theorem Tracked.found {s : BufferPool σ} (hs : Tracked P W E s) {images : List Image}
    (h : ∀ e, .error e ∈ images → E e) : Tracked P W E (found images s) :=
  ⟨hs.named, hs.orderly, hs.positive, h⟩

theorem tracked_run (hP : P.Orderly W) {files : List (List Image)} {s : BufferPool σ}
    (hs : Tracked P W (Given disk files) s) {steps : List Step}
    (hsteps : ∀ c ∈ steps, c.1 ∈ files) :
    Tracked P W (Given disk files) (run (stepReading disk P) s steps) := by
  induction steps generalizing s with
  | nil => exact hs
  | cons c steps ih =>
    apply ih _ fun d hd => hsteps d (List.mem_cons_of_mem _ hd)
    have hc := hs.found fun e he => .image (hsteps c List.mem_cons_self) he
    exact (step_keeps hP (outside_given disk files) hc c.2).1

/-- Every frame has one name, a name is always found, and with a frame there is always one to let
go; a call fails as the disk or the file do, and what it asked for is there when it returns. -/
structure FindsVictims (disk : Disk) (P : EvictionPolicy σ) (files : List (List Image))
    (s : BufferPool σ) : Prop where
  once : ∀ id, (s.frames.get id).isSome → (P.names s.policy).count id = 1
  victim : P.names s.policy ≠ [] → ∃ id rest, P.victim s.policy = some (id, rest) ∧
    (P.names s.policy).Perm (id :: P.names rest)
  evicts : 0 < s.frames.size → ∃ id f policy, s.frames.get id = some f ∧
    evictOne disk P s = letGo disk id f policy s
  fails : ∀ images c e, callError disk P c (found images s) = some e →
    Given disk (images :: files) e
  resident : ∀ images id s', ensureResident disk P id (found images s) = .ok () s' →
    ∃ f, s'.frames.get id = some f ∧ Pager.get disk P id (found images s) = .ok f.page s' ∧
      ∀ edit, getMut disk P id edit (found images s) =
        .ok () { s' with frames := s'.frames.insert id ⟨edit f.page, true⟩ }

theorem Given.mono {files more : List (List Image)} (hmore : files ⊆ more) {e : Error}
    (h : Given disk files e) : Given disk more e := by
  cases h with
  | write h => exact .write h
  | left h => exact .left h
  | image h he => exact .image (hmore h) he
  | checksum => exact .checksum
  | range id count => exact .range id count

theorem evictOne_eq {s : BufferPool σ} {id : ℕ} {f : Frame} {policy : σ}
    (h : nextVictim P ((P.names s.policy).length + 1) s.policy s.frames = some (id, f, policy)) :
    evictOne disk P s = letGo disk id f policy s := by
  apply eq_of_post
  intro Q R
  rw [evictOne, post_bind, post_get]
  exact evictLoop_eq h Q R

theorem get_eq {s s' : BufferPool σ} {id : ℕ} {f : Frame}
    (h : ensureResident disk P id s = .ok () s') (hf : s'.frames.get id = some f) :
    Pager.get disk P id s = .ok f.page s' := by
  have hpost : Returns (Pager.get disk P id) s fun page t => page = f.page ∧ t = s' := by
    rw [Pager.get, Returns, post_bind, post_of_ok h, post_bind]
    apply (frameOf_spec (hf ▸ rfl)).mono
    rintro g t ⟨rfl, hg⟩
    exact ⟨congrArg Frame.page (Option.some.inj (hg.symm.trans hf)), rfl⟩
  obtain ⟨_, _, hx, rfl, rfl⟩ := hpost.exists
  exact hx

theorem getMut_eq {s s' : BufferPool σ} {id : ℕ} {f : Frame}
    (h : ensureResident disk P id s = .ok () s') (hf : s'.frames.get id = some f)
    (edit : Page → Page) :
    getMut disk P id edit s =
      .ok () { s' with frames := s'.frames.insert id ⟨edit f.page, true⟩ } := by
  have hpost : Returns (getMut disk P id edit) s fun _ t =>
      t = { s' with frames := s'.frames.insert id ⟨edit f.page, true⟩ } := by
    rw [getMut, Returns, post_bind, post_of_ok h, post_bind]
    apply (frameOf_spec (hf ▸ rfl)).mono
    rintro g t ⟨rfl, hg⟩
    rw [Option.some.inj (hg.symm.trans hf)]
    rfl
  obtain ⟨_, _, hx, rfl⟩ := hpost.exists
  exact hx

theorem Tracked.findsVictims (hP : P.Orderly W) {files : List (List Image)} {s : BufferPool σ}
    (hs : Tracked P W (Given disk files) s) : FindsVictims disk P files s where
  once := by
    intro id hid
    obtain ⟨f, hf⟩ := Option.isSome_iff_exists.mp hid
    exact List.count_eq_one_of_mem (hP.nodup hs.orderly) (hs.named id f hf)
  victim := by
    intro hne
    cases hv : P.victim s.policy with
    | none => exact absurd (P.victim_none hv) hne
    | some r => exact ⟨r.1, r.2, rfl, P.victim_some hv⟩
  evicts := by
    intro hpos
    obtain ⟨⟨id, f, policy⟩, hv⟩ := hs.nextVictim hpos
    exact ⟨id, f, policy, nextVictim_frame hv, evictOne_eq hv⟩
  fails := by
    intro images c e he
    have hmore : Tracked P W (Given disk (images :: files)) s :=
      ⟨hs.named, hs.orderly, hs.positive,
        fun e he => (hs.images e he).mono (List.subset_cons_self _ _)⟩
    have hfound := hmore.found fun e he => .image List.mem_cons_self he
    exact (step_keeps hP (outside_given disk _) hfound c).2 e he
  resident := by
    intro images id s' hs'
    have hmore : Tracked P W (Given disk (images :: files)) s :=
      ⟨hs.named, hs.orderly, hs.positive,
        fun e he => (hs.images e he).mono (List.subset_cons_self _ _)⟩
    have hfound := hmore.found fun e he => .image List.mem_cons_self he
    have hresident := (ensureResident_keeps hP (outside_given disk _) hfound id).of_ok hs'
    obtain ⟨f, hf⟩ := Option.isSome_iff_exists.mp hresident.2
    exact ⟨f, hf, get_eq hs' hf, getMut_eq hs' hf⟩

theorem tracked_new {files : List (List Image)} {pages : List Image} (hpages : pages ∈ files)
    (capacity : ℕ+) {policy : σ} (hpolicy : W policy) :
    Tracked P W (Given disk files) (.new pages capacity policy) where
  named := by
    intro id f hf
    cases hf
  orderly := hpolicy
  positive := capacity.pos
  images := fun _ he => .image hpages he

/-- After any calls of the pool, whichever of them failed, either policy finds its victims. -/
theorem victims_found (disk : Disk) (pages : List Image) (capacity : ℕ+) (steps : List Step) :
    FindsVictims disk Lru.policy (pages :: steps.map Prod.fst)
        (run (stepReading disk Lru.policy) (.new pages capacity ⟨[]⟩) steps) ∧
      FindsVictims disk Clock.policy (pages :: steps.map Prod.fst)
        (run (stepReading disk Clock.policy) (.new pages capacity ⟨[], 0⟩) steps) ∧
      (run (stepReading disk Clock.policy) (.new pages capacity ⟨[], 0⟩) steps).policy.hand ≤
        (run (stepReading disk Clock.policy) (.new pages capacity ⟨[], 0⟩)
          steps).policy.entries.length := by
  have hfiles : ∀ c ∈ steps, c.1 ∈ pages :: steps.map Prod.fst :=
    fun c hc => List.mem_cons_of_mem _ (List.mem_map_of_mem hc)
  have hlru : Tracked Lru.policy _ (Given disk (pages :: steps.map Prod.fst)) _ :=
    tracked_run Lru.orderly (tracked_new List.mem_cons_self capacity List.nodup_nil) hfiles
  have hclock : Tracked Clock.policy _ (Given disk (pages :: steps.map Prod.fst)) _ :=
    tracked_run Clock.orderly (tracked_new List.mem_cons_self capacity Clock.inBounds_new) hfiles
  exact ⟨hlru.findsVictims Lru.orderly, hclock.findsVictims Clock.orderly, hclock.orderly.hand⟩

end Adabt.Storage.Pager
