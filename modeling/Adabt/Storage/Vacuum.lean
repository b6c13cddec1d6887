import Adabt.Storage.Contents

/-! # Giving pages back

A vacuum moves live records off the last page and cuts the page off once no live
record is left there. Whether an older version, kept for a snapshot, is still
there is not asked. Where none is, a vacuum changes no answer. -/

set_option autoImplicit false

namespace Adabt.Storage
open Adabt.Core Adabt.Library

namespace Heap

variable (E : Env) {h : Heap}

/-! ## Rounds -/

/-- One round: how many pages it gave back, or `none` when there is nothing more to do. -/
def vacuumRound : HeapM (Option ℕ) := do
  let h ← get
  let count := h.pool.pageCount
  if count = 0 then return none
  else
    let last := count - 1
    let occupants := liveRecordsOn E h last
    if occupants = [] then
      modify fun h => { h with pool := h.pool.truncateTo last, fsm := h.fsm.forget last }
      return some 1
    else
      modify fun h => { h with fsm := h.fsm.forget last }
      let moved ← relocateAll last occupants
      if moved then
        let _ ← reclaim E
        return some 0
      else return none

theorem vacuumLoop_succ (rounds freed : ℕ) :
    vacuumLoop E (rounds + 1) freed = vacuumRound E >>= fun
      | none => pure (some freed)
      | some n => vacuumLoop E rounds (freed + n) := by
  funext h
  refine eq_of_post fun Q R => ?_
  rw [vacuumLoop, vacuumRound]
  simp only [post_bind, post_get]
  by_cases hcount : h.pool.pageCount = 0
  · rw [if_pos hcount, if_pos hcount]
    rfl
  · rw [if_neg hcount, if_neg hcount]
    by_cases hocc : liveRecordsOn E h (h.pool.pageCount - 1) = []
    · rw [if_pos hocc, if_pos hocc]
      rfl
    · rw [if_neg hocc, if_neg hocc]
      simp only [post_bind, post_modify]
      have hrest : ∀ (moved : Bool) (h1 : Heap),
          Post (if moved then reclaim E >>= fun _ => vacuumLoop E rounds freed
            else pure (some freed)) h1 Q R ↔
          Post (if moved then reclaim E >>= fun _ => pure (some 0) else pure none) h1
            (fun o h2 => Post (match o with
              | none => pure (some freed)
              | some n => vacuumLoop E rounds (freed + n)) h2 Q R) R := by
        intro moved h1
        cases moved with
        | false => rfl
        | true =>
          rw [if_pos rfl, if_pos rfl, post_bind, post_bind]
          rfl
      simp only [hrest]

/-! ## Which rounds are safe -/

/-- Some chain has a version on the page. -/
def keptOn (h : Heap) (page : ℕ) : Bool :=
  h.collections.values.any fun c => c.directory.values.any fun chain =>
    chain.locations.any (·.page = page)

/-- The last page, if no live record is on it, has no version of any record. -/
def Sparing (h : Heap) : Prop :=
  h.pool.pageCount = 0 ∨ liveRecordsOn E h (h.pool.pageCount - 1) ≠ [] ∨
    h.keptOn (h.pool.pageCount - 1) = false

instance (h : Heap) : Decidable (Sparing E h) :=
  inferInstanceAs (Decidable (_ ∨ _ ∨ _))

/-- No round cuts off a page that has a version of a record. -/
def Spares : ℕ → Heap → Prop
  | 0, _ => True
  | rounds + 1, h => Sparing E h ∧
    match vacuumRound E h with
    | .ok (some _) h' => Spares rounds h'
    | _ => True

def decideSpares : (rounds : ℕ) → (h : Heap) → Decidable (Spares E rounds h)
  | 0, _ => isTrue trivial
  | rounds + 1, h =>
    have : Decidable (match vacuumRound E h with
        | .ok (some _) h' => Spares E rounds h'
        | _ => True) :=
      match vacuumRound E h with
      | .ok (some _) h' => decideSpares rounds h'
      | .ok none _ => isTrue trivial
      | .error _ _ => isTrue trivial
    inferInstanceAs (Decidable (_ ∧ _))

instance (rounds : ℕ) (h : Heap) : Decidable (Spares E rounds h) := decideSpares E rounds h

theorem keptOn_eq_true {page : ℕ} :
    h.keptOn page = true ↔ ∃ loc k t, h.store.Owns loc k t ∧ loc.page = page := by
  simp only [keptOn, List.any_eq_true, OrdMap.mem_values, decide_eq_true_eq]
  constructor
  · rintro ⟨c, ⟨name, hc⟩, chain, ⟨id, hd⟩, loc, hl, hp⟩
    obtain ⟨⟨t, l⟩, hv, rfl⟩ := List.mem_filterMap.mp hl
    exact ⟨loc, (name, id), t, owns_of_mem hc hd hv, hp⟩
  · rintro ⟨loc, ⟨name, id⟩, t, ho, hp⟩
    change (t, some loc) ∈ h.chainOf (name, id) at ho
    unfold chainOf at ho
    cases hc : h.collections.get name with
    | none =>
      rw [hc] at ho
      cases ho
    | some c =>
      rw [hc, Option.bind_some] at ho
      cases hd : c.directory.get id with
      | none =>
        rw [hd] at ho
        cases ho
      | some chain =>
        rw [hd] at ho
        exact ⟨c, ⟨name, hc⟩, chain, ⟨id, hd⟩, loc, List.mem_filterMap.mpr ⟨_, ho, rfl⟩, hp⟩

theorem mem_liveRecordsOn {page : ℕ} {k : Key} :
    k ∈ liveRecordsOn E h page ↔
      ∃ loc, Chain.newest (h.chainOf k) = some loc ∧ loc.page = page := by
  obtain ⟨name, id⟩ := k
  simp only [liveRecordsOn, List.mem_flatMap, (E.names_perm _ _).mem_iff, OrdMap.mem_keys]
  constructor
  · rintro ⟨n, -, hm⟩
    cases hc : h.collections.get n with
    | none =>
      rw [hc] at hm
      cases hm
    | some c =>
      rw [hc] at hm
      obtain ⟨e, he, hne⟩ := List.mem_map.mp hm
      cases hne
      obtain ⟨he, hp⟩ := List.mem_filter.mp he
      obtain ⟨loc, hl, hp⟩ := Option.map_eq_some_iff.mp (of_decide_eq_true hp)
      refine ⟨loc, ?_, hp⟩
      rw [chainOf_eq hc ((OrdMap.mem_entries _ _ _).mp he)]
      exact hl
  · rintro ⟨loc, hl, hp⟩
    unfold chainOf at hl
    cases hc : h.collections.get name with
    | none =>
      rw [hc] at hl
      cases hl
    | some c =>
      rw [hc, Option.bind_some] at hl
      cases hd : c.directory.get id with
      | none =>
        rw [hd] at hl
        cases hl
      | some chain =>
        rw [hd] at hl
        refine ⟨name, by rw [hc]; rfl, ?_⟩
        rw [hc]
        refine List.mem_map.mpr ⟨(id, chain), List.mem_filter.mpr
          ⟨(OrdMap.mem_entries _ _ _).mpr hd, decide_eq_true ?_⟩, rfl⟩
        exact Option.map_eq_some_iff.mpr ⟨loc, hl, hp⟩

/-! ## Cutting the last page off -/

theorem free_forget (m : FreeSpaceMap) (page p : ℕ) :
    (m.forget page).free.get p = if p = page then none else m.free.get p := by
  unfold FreeSpaceMap.forget
  cases hold : m.free.get page with
  | none =>
    split_ifs with hp
    · rw [hp, hold]
    · rfl
  | some old => exact OrdMap.get_erase m.free page p

theorem read_truncateTo (pool : Pool) (pages : ℕ) (loc : RecordLocation) :
    (pool.truncateTo pages).read loc = if loc.page < pages then pool.read loc else none := by
  rw [← Pool.read_flush pool loc]
  unfold Pool.read Pool.truncateTo
  rw [List.getElem?_take]
  split_ifs
  · rfl
  · rfl

/-- The page is no longer offered. -/
theorem keeps_forget (hs : h.Sound) (page : ℕ) :
    Keeps h { h with fsm := h.fsm.forget page } := by
  refine ⟨evolves_of_writes hs .refl rfl rfl fun p free hp => ?_, rfl, rfl⟩
  rw [free_forget] at hp
  split_ifs at hp
  exact hs.fsm p free hp

/-- A page that has no version can go. -/
theorem keeps_truncate (hs : h.Sound)
    (hkept : h.keptOn (h.pool.pageCount - 1) = false) :
    Keeps h { h with
      pool := h.pool.truncateTo (h.pool.pageCount - 1)
      fsm := h.fsm.forget (h.pool.pageCount - 1) } := by
  have hread : ∀ loc k t, h.store.Owns loc k t →
      (h.pool.truncateTo (h.pool.pageCount - 1)).read loc = h.pool.read loc := by
    intro loc k t ho
    have hlt := owned_lt hs.store ho
    have hne : loc.page ≠ h.pool.pageCount - 1 := fun hp => by
      rw [keptOn_eq_true.mpr ⟨loc, k, t, ho, hp⟩] at hkept
      cases hkept
    rw [read_truncateTo, if_pos (by omega)]
  have hstep := VersionStore.WriteStep.scratch h.store
    (h.pool.truncateTo (h.pool.pageCount - 1)).read hread
  refine ⟨evolves_of_writes hs (.single hstep) rfl rfl fun p free hp => ?_, rfl, ?_⟩
  · rw [free_forget] at hp
    split_ifs at hp with hlast
    have hlt := hs.fsm p free hp
    rw [Pool.pageCount_truncateTo]
    omega
  · funext k
    refine Option.bind_congr fun loc hl => ?_
    obtain ⟨t, ht⟩ := Chain.mem_of_newest hl
    exact hread loc k t ht

/-! ## Moving records off it -/

/-- Only the pool and the free-space map differ, and no read notices. -/
structure Unread (h h' : Heap) : Prop where
  only : PoolOnly h h'
  read : h'.pool.read = h.pool.read
  fsm : h'.FsmInRange

theorem PoolOnly.formatOf {h' : Heap} (a : PoolOnly h h') : h'.formatOf = h.formatOf := by
  funext name
  have hget := congrArg (Option.map fun c : Collection => (c.id, c.codec, h.compress)) (a.get name)
  simp only [Option.map_map, Function.comp_def] at hget
  unfold Heap.formatOf
  rw [a.compress]
  exact hget

theorem PoolOnly.mode {h' : Heap} (a : PoolOnly h h') : h'.replaying = h.replaying := by
  have hmode := congrArg Heap.replaying a
  exact hmode

theorem Unread.keeps {h' : Heap} (u : Unread h h') (hs : h.Sound) : Keeps h h' := by
  have hstore : h'.store = h.store := by
    unfold store
    rw [u.only.chainOf, u.read, u.only.versions]
  refine ⟨evolves_of_writes hs (hstore ▸ .refl) u.only.codecOf u.only.mode u.fsm,
    u.only.formatOf, ?_⟩
  unfold stored
  rw [hstore]

/-- A payload that is empty is refused, and then nothing that is read has changed. -/
theorem place_empty (hf : h.FsmInRange) :
    Post (place []) h (fun _ _ => False) fun _ h' => Unread h h' := by
  have hinto : ∀ (h1 : Heap) (pid : ℕ) (page : Page), Unread h h1 →
      Post (insertInto pid page []) h1 (fun _ _ => False) fun _ h' => Unread h h' := by
    intro h1 pid page u
    unfold insertInto
    rw [post_bind]
    exact u
  have hfresh : ∀ h1 : Heap, Unread h h1 →
      Post (placeFresh []) h1 (fun _ _ => False) fun _ h' => Unread h h' := by
    intro h1 u
    unfold placeFresh allocate getPage
    simp only [post_bind]
    change Post (attempt (h1.pool.allocate.1.get h1.pool.allocate.2))
      { h1 with pool := h1.pool.allocate.1 } _ _
    rw [Pool.get_allocate, post_attempt_ok]
    refine hinto _ _ _ ⟨u.only.trans rfl, ?_, fun p free hp => ?_⟩
    · exact (funext (Pool.read_allocate h1.pool)).trans u.read
    · rw [Pool.pageCount_allocate]
      exact Nat.lt_succ_of_lt (u.fsm p free hp)
  have hsame : Unread h h := ⟨rfl, rfl, hf⟩
  unfold place
  rw [post_bind, post_get]
  cases hfind : h.fsm.find (Page.costOf ([] : Bytes).length) with
  | none => exact hfresh h hsame
  | some pid =>
    have hneed : 0 < Page.costOf ([] : Bytes).length := by simp [Page.costOf, slotSize]
    obtain ⟨free, hfree, -⟩ := FreeSpaceMap.find_known hfind hneed
    have hlt := hf pid free hfree
    obtain ⟨page, hp⟩ := Pool.get_of_lt hlt
    simp only [getPage, post_bind, post_get, hp, post_attempt_ok]
    by_cases hfit : page.canFit ([] : Bytes).length
    · rw [if_pos hfit]
      exact hinto h pid page hsame
    · rw [if_neg hfit]
      simp only [post_bind, post_modify]
      exact hfresh _ ⟨rfl, rfl, fsmInRange_set hf hlt page.freeSpace h.pool le_rfl⟩

theorem length_le_liveBytes {xs : List (Option Bytes)} {b : Bytes} (hb : some b ∈ xs) :
    b.length ≤ liveBytes xs := by
  induction xs with
  | nil => cases hb
  | cons x xs ih =>
    rcases List.mem_cons.mp hb with rfl | hrest
    · exact Nat.le_add_right _ _
    · cases x with
      | none => exact ih hrest
      | some a => exact (ih hrest).trans (Nat.le_add_left _ _)

/-- What a page holds fits another page. -/
theorem payload_le {page : Page} {i : ℕ} {b : Bytes} (hb : page.payloadAt i = some b) :
    b.length ≤ maxPayload := by
  have hget : page.slots[i]? = some (some b) := by
    unfold Page.payloadAt at hb
    rw [List.getD_eq_getElem?_getD] at hb
    cases hs : page.slots[i]? with
    | none =>
      rw [hs] at hb
      cases hb
    | some s =>
      rw [hs] at hb
      exact congrArg some hb
  have hlive := length_le_liveBytes (List.mem_of_getElem? hget)
  have hlt := (List.getElem?_eq_some_iff.mp hget).1
  have hslots := page.slots_le
  have hpayloads := page.payloads_le
  unfold headerSize slotSize at hslots
  unfold pageSize at hpayloads
  unfold maxPayload pageSize headerSize slotSize
  omega

theorem pushMoved_eq {name : String} {id : RecordId} {c : Collection} {chain : VersionChain}
    (hc : h.collections.get name = some c) (hd : c.directory.get id = some chain) (txn : ℕ)
    (loc : RecordLocation) :
    pushMoved name id txn loc h =
      { h.setCollection name
          { c with directory := c.directory.insert id (chain.push txn (some loc)) } with
        retained := h.retained + 1 } := by
  unfold pushMoved
  rw [hc]
  dsimp only
  rw [hd]

/-- The record stands in a fresh slot, with its payload as it was. -/
theorem moved_keeps (hs : h.Sound) {name : String} {id : RecordId} {c : Collection}
    {chain : VersionChain} {loc loc' : RecordLocation} {payload : Bytes} {h1 : Heap}
    (hc : h.collections.get name = some c) (hd : c.directory.get id = some chain)
    (hl : chain.newest = some loc) (hread : h.pool.read loc = some payload)
    (p : Placed h payload loc' h1) :
    Keeps h (pushMoved name id h1.versions.next loc' (began h1)) := by
  obtain ⟨cl, hc1⟩ := p.only.get_some hc
  have hc1 : (began h1).collections.get name = some { c with cluster := cl } := hc1
  obtain ⟨d, hd'⟩ : ∃ d, d = { c with
    cluster := cl
    directory := c.directory.insert id (chain.push h1.versions.next (some loc')) } := ⟨_, rfl⟩
  rw [pushMoved_eq hc1 hd, ← hd']
  have hbegan : (began h1).chainOf = h.chainOf := p.only.chainOf
  have hversions : h1.versions = h.versions := p.only.versions
  have hold : h.chainOf (name, id) = chain.versions := chainOf_eq hc hd
  have hchain := chainOf_setCollection (d := d) hc1 (by rw [hd'])
  have hstore : Heap.store { (began h1).setCollection name d with
      retained := (began h1).retained + 1 } = h.store.put (name, id) loc' payload := by
    unfold Heap.store VersionStore.put VersionStore.append
    change VersionStore.mk ((began h1).setCollection name d).chainOf h1.pool.read
      (h1.versions.next + 1) h1.versions.opened = _
    rw [hchain, p.read, hbegan, hversions, VersionChain.push]
    simp only [hold]
  refine ⟨evolves_of_writes hs ?_ ?_ p.only.mode p.fsm, ?_, ?_⟩
  · rw [hstore]
    exact .single (.put _ _ loc' _ p.fresh)
  · exact (codecOf_setCollection (d := d) hc1 (by rw [hd'])).trans p.only.codecOf
  · refine Eq.trans (funext fun m => ?_) p.only.formatOf
    unfold formatOf setCollection
    rw [OrdMap.get_insert]
    split_ifs with hm
    · change _ = Option.map _ ((began h1).collections.get m)
      rw [hm, hc1, hd']
      rfl
    · rfl
  · have hnow : h.stored (name, id) = some payload := by
      change (Chain.newest (h.chainOf (name, id))).bind h.pool.read = _
      rw [hold, ← VersionChain.newest_eq, hl]
      exact hread
    unfold stored
    rw [hstore, hs.store.now_put _ _ p.fresh]
    exact Function.update_eq_self_iff.mpr hnow.symm

/-- A record keeps its payload wherever it is moved. -/
theorem keeps_relocate (hs : h.Sound) (name : String) (id : RecordId) (page : ℕ) :
    Post (relocate name id page) h (fun _ => Keeps h) fun _ => Keeps h := by
  unfold relocate
  rw [post_bind, post_get]
  cases hl : ((h.collections.get name).bind (·.directory.get id)).bind (·.newest) with
  | none => exact Keeps.refl hs
  | some loc =>
    dsimp only
    obtain ⟨chain, hd, hn⟩ := Option.bind_eq_some_iff.mp hl
    obtain ⟨c, hc, hd⟩ := Option.bind_eq_some_iff.mp hd
    by_cases hpage : loc.page ≠ page
    · rw [if_pos hpage]
      exact Keeps.refl hs
    · rw [if_neg hpage]
      obtain ⟨payload, hread⟩ := Option.ne_none_iff_exists'.mp (readable_newest hs.store _ _ _ hl)
      obtain ⟨image, himage⟩ := Pool.get_of_lt (Pool.lt_of_read hread)
      have hat := (Pool.read_eq_get himage loc.slot).symm.trans hread
      rw [post_bind, getPage, post_bind, post_get, himage, post_attempt_ok, post_bind,
        Page.get_eq_ok.mpr hat, post_attempt_ok]
      by_cases hfind : (h.fsm.find (Page.costOf payload.length)).isNone
      · rw [if_pos hfind]
        exact Keeps.refl hs
      · rw [if_neg hfind, post_bind]
        by_cases hne : payload = []
        · rw [hne]
          exact (place_empty hs.fsm).mono (fun _ _ hF => hF.elim) fun _ _ u => u.keeps hs
        · refine (place_spec hs.fsm hne (payload_le hat)).mono fun loc' h1 p => ?_
          rw [post_bind]
          exact moved_keeps hs hc hd hn hread p

theorem keeps_relocateAll (page : ℕ) (occupants : List (String × RecordId)) {h : Heap}
    (hs : h.Sound) :
    Post (relocateAll page occupants) h (fun _ => Keeps h) fun _ => Keeps h := by
  induction occupants generalizing h with
  | nil => exact Keeps.refl hs
  | cons o rest ih =>
    rw [relocateAll, post_bind]
    refine (keeps_relocate hs o.1 o.2 page).mono (fun _ h1 a => ?_) fun _ _ a => a
    rw [post_bind]
    exact (ih a.evolves.sound).mono (fun _ _ b => a.trans b) fun _ _ b => a.trans b

/-! ## A whole vacuum -/

theorem keeps_vacuumRound (hs : h.Sound) (hspare : Sparing E h) :
    Post (vacuumRound E) h (fun _ => Keeps h) fun _ => Keeps h := by
  unfold vacuumRound
  rw [post_bind, post_get]
  dsimp only
  by_cases hcount : h.pool.pageCount = 0
  · rw [if_pos hcount]
    exact Keeps.refl hs
  · rw [if_neg hcount]
    by_cases hocc : liveRecordsOn E h (h.pool.pageCount - 1) = []
    · rw [if_pos hocc, post_bind, post_modify]
      exact keeps_truncate hs ((hspare.resolve_left hcount).resolve_left fun hne => hne hocc)
    · rw [if_neg hocc, post_bind, post_modify, post_bind]
      have hforget := keeps_forget hs (h.pool.pageCount - 1)
      refine (keeps_relocateAll _ _ hforget.evolves.sound).mono (fun moved h1 a => ?_) fun _ _ a =>
        hforget.trans a
      have h1keeps := hforget.trans a
      cases moved with
      | false => exact h1keeps
      | true =>
        rw [if_pos rfl, post_bind]
        exact (keeps_reclaim E h1keeps.evolves.sound).mono fun _ _ b => h1keeps.trans b

theorem keeps_vacuumLoop {rounds : ℕ} (freed : ℕ) (hs : h.Sound) (hspare : Spares E rounds h) :
    Post (vacuumLoop E rounds freed) h (fun _ => Keeps h) fun _ => Keeps h := by
  induction rounds generalizing h freed with
  | zero => exact Keeps.refl hs
  | succ rounds ih =>
    rw [vacuumLoop_succ, post_bind]
    have hround := keeps_vacuumRound E hs hspare.1
    have hrest := hspare.2
    unfold Post at hround ⊢
    cases hr : vacuumRound E h with
    | error e h1 =>
      rw [hr] at hround
      exact hround
    | ok o h1 =>
      rw [hr] at hround hrest
      cases o with
      | none => exact hround
      | some n =>
        exact (ih (freed + n) hround.evolves.sound hrest).mono (fun _ _ a => hround.trans a)
          fun _ _ a => hround.trans a

/-- A vacuum that cuts off no page with a version on it changes nothing that is stored, and is
to every open snapshot a sequence of writes. -/
theorem keeps_vacuum {rounds : ℕ} (hs : h.Sound) (hspare : Spares E rounds (exec (reclaim E) h)) :
    Post (vacuum E rounds) h (fun _ => Keeps h) fun _ => Keeps h := by
  obtain ⟨n, h1, hr, hkeeps⟩ := (keeps_reclaim E hs).exists
  rw [exec_of_ok hr] at hspare
  unfold vacuum
  rw [post_bind, post_of_ok hr]
  exact (keeps_vacuumLoop E 0 hkeeps.evolves.sound hspare).mono (fun _ _ a => hkeeps.trans a)
    fun _ _ a => hkeeps.trans a

/-! ## Without open snapshots -/

/-- Every chain is a single version. -/
def Trimmed (h : Heap) : Prop := ∀ k, (h.chainOf k).length ≤ 1

theorem trimmed_of_reclaimed (hs : h.Sound) (hnone : h.versions.opened = []) {h' : Heap}
    (r : Reclaimed E h h') : h'.Trimmed := by
  intro k
  rw [r.chainOf, chainOf_trimAll]
  have htrim := h.trim_keptOf k
  have hle : (h.keptOf k).length ≤ 1 := by
    by_contra hlong
    obtain ⟨v, hv⟩ : ∃ v, v ∈ (h.keptOf k).tail :=
      List.exists_mem_of_length_pos (by rw [List.length_tail]; omega)
    have hrecent := htrim.recent v hv
    have hstamp : v.1 < h.versions.next :=
      hs.store.stamps (htrim.mem_kept (List.mem_of_mem_tail hv))
    have hhorizon : h.versions.reclaimHorizon = h.versions.next - 1 := by
      unfold VersionTracker.reclaimHorizon
      rw [hnone]
      rfl
    omega
  rcases Chain.settle_eq (h.keptOf k) with he | ⟨_, -, he⟩
  · rwa [he]
  · rw [he]
    exact Nat.zero_le 1

/-- A page with no live record has no version either. -/
theorem Trimmed.sparing (ht : h.Trimmed) : Sparing E h := by
  by_cases hkept : h.keptOn (h.pool.pageCount - 1) = true
  · obtain ⟨loc, k, t, ho, hp⟩ := keptOn_eq_true.mp hkept
    change (t, some loc) ∈ h.chainOf k at ho
    have hnewest : Chain.newest (h.chainOf k) = some loc := by
      have hlen := ht k
      cases hk : h.chainOf k with
      | nil =>
        rw [hk] at ho
        cases ho
      | cons v rest =>
        rw [hk] at ho hlen
        have hrest : rest = [] := List.eq_nil_of_length_eq_zero (by simpa using hlen)
        rw [hrest, List.mem_singleton] at ho
        rw [hrest, ← ho]
        rfl
    exact .inr (.inl (List.ne_nil_of_mem ((mem_liveRecordsOn E).mpr ⟨loc, hnewest, hp⟩)))
  · exact .inr (.inr (Bool.not_eq_true _ ▸ hkept))

/-- While no snapshot is open, a round that is not the last leaves single versions. -/
theorem vacuumRound_trimmed (hs : h.Sound) (hnone : h.versions.opened = []) (ht : h.Trimmed) :
    Post (vacuumRound E) h
      (fun o h' => h'.Sound ∧ h'.versions.opened = [] ∧ (o ≠ none → h'.Trimmed))
      fun _ _ => True := by
  have hopened : ∀ {h' : Heap}, Keeps h h' → h'.versions.opened = [] := fun k =>
    (VersionStore.Writes.opened_eq k.evolves.writes).trans hnone
  suffices htrimmed : Post (vacuumRound E) h (fun o h' => o ≠ none → h'.Trimmed)
      fun _ _ => True from
    ((keeps_vacuumRound E hs (ht.sparing E)).and htrimmed).mono
      (fun _ _ k => ⟨k.1.evolves.sound, hopened k.1, k.2⟩) fun _ _ _ => trivial
  unfold vacuumRound
  rw [post_bind, post_get]
  dsimp only
  by_cases hcount : h.pool.pageCount = 0
  · rw [if_pos hcount]
    exact fun hne => absurd rfl hne
  · rw [if_neg hcount]
    by_cases hocc : liveRecordsOn E h (h.pool.pageCount - 1) = []
    · rw [if_pos hocc, post_bind, post_modify]
      exact fun _ => ht
    · rw [if_neg hocc, post_bind, post_modify, post_bind]
      have hforget := keeps_forget hs (h.pool.pageCount - 1)
      refine (keeps_relocateAll _ _ hforget.evolves.sound).mono (fun moved h1 a => ?_) fun _ _ _ =>
        trivial
      have hkeeps := hforget.trans a
      cases moved with
      | false => exact fun hne => absurd rfl hne
      | true =>
        rw [if_pos rfl, post_bind]
        refine (reclaim_spec E hkeeps.evolves.sound.store).mono fun _ _ r => ?_
        exact fun _ => trimmed_of_reclaimed E hkeeps.evolves.sound (hopened hkeeps) r.2

theorem spares_of_trimmed (rounds : ℕ) (hs : h.Sound) (hnone : h.versions.opened = [])
    (ht : h.Trimmed) : Spares E rounds h := by
  induction rounds generalizing h with
  | zero => trivial
  | succ rounds ih =>
    refine ⟨ht.sparing E, ?_⟩
    have hround := vacuumRound_trimmed E hs hnone ht
    unfold Post at hround
    cases hr : vacuumRound E h with
    | error e h1 => trivial
    | ok o h1 =>
      rw [hr] at hround
      cases o with
      | none => trivial
      | some n => exact ih hround.1 hround.2.1 (hround.2.2 (Option.some_ne_none n))

/-- With no snapshot open a vacuum cuts off no page with a version on it. -/
theorem spares_of_closed (rounds : ℕ) (hs : h.Sound) (hnone : h.versions.opened = []) :
    Spares E rounds (exec (reclaim E) h) := by
  obtain ⟨n, h1, hr, r⟩ := (reclaim_spec E hs.store).exists
  have hkeeps : Keeps h h1 := (keeps_reclaim E hs).of_ok hr
  rw [exec_of_ok hr]
  exact spares_of_trimmed E rounds hkeeps.evolves.sound
    ((VersionStore.Writes.opened_eq hkeeps.evolves.writes).trans hnone)
    (trimmed_of_reclaimed E hs hnone r.2)

end Heap

end Adabt.Storage
