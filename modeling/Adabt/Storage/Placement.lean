import Adabt.Storage.HeapView

/-! # Placing and freeing

What the two operations on pages do to a heap. Placing fills one slot that was
not live and freeing empties the slots it is given; every other slot keeps its
payload, and of the rest of the heap only the free-space map changes (and, for a
keyed placement, the clustering hint). -/

set_option autoImplicit false

namespace Adabt.Storage
open Adabt.Core Adabt.Library

namespace Heap

/-- The heap without its clustering hints. -/
def unclustered (h : Heap) : Heap :=
  { h with collections := h.collections.mapVal fun _ c => { c with cluster := none } }

/-- Only the pool, the free-space map and the clustering hints differ. -/
def PoolOnly (h h' : Heap) : Prop :=
  h'.unclustered = { h with pool := h'.pool, fsm := h'.fsm }.unclustered

/-- The free-space map names pages of the file only. -/
def FsmInRange (h : Heap) : Prop := ∀ p free, h.fsm.free.get p = some free → p < h.pool.pageCount

namespace PoolOnly

variable {h h' h'' : Heap}

theorem refl (h : Heap) : PoolOnly h h := rfl

theorem trans (a : PoolOnly h h') (b : PoolOnly h' h'') : PoolOnly h h'' := by
  unfold PoolOnly unclustered at *
  simp only [Heap.mk.injEq] at a b ⊢
  obtain ⟨-, a1, a2, a3, a4, -, a5⟩ := a
  obtain ⟨-, b1, b2, b3, b4, -, b5⟩ := b
  simp_all

theorem get (a : PoolOnly h h') (name : String) :
    (h'.collections.get name).map (fun c => { c with cluster := none }) =
      (h.collections.get name).map fun c => { c with cluster := none } := by
  have := congrArg (fun s => s.collections.get name) a
  simpa [unclustered] using this

theorem get_none (a : PoolOnly h h') {name : String} :
    h'.collections.get name = none ↔ h.collections.get name = none := by
  rw [← Option.map_eq_none_iff (f := fun c : Collection => { c with cluster := none }), a.get,
    Option.map_eq_none_iff]

/-- A collection keeps everything but its clustering hint. -/
theorem get_some (a : PoolOnly h h') {name : String} {c : Collection}
    (hc : h.collections.get name = some c) :
    ∃ cl, h'.collections.get name = some { c with cluster := cl } := by
  have hg := a.get name
  rw [hc, Option.map_some, Option.map_eq_some_iff] at hg
  obtain ⟨c', hc', he⟩ := hg
  refine ⟨c'.cluster, hc'.trans (congrArg some ?_)⟩
  cases c
  cases c'
  simp_all

theorem keys (a : PoolOnly h h') : h'.collections.keys = h.collections.keys := by
  have := congrArg (fun s => s.collections.keys) a
  simpa only [unclustered, OrdMap.keys_mapVal] using this

theorem wal (a : PoolOnly h h') : h'.wal = h.wal := by
  have := congrArg Heap.wal a
  exact this

theorem compress (a : PoolOnly h h') : h'.compress = h.compress := by
  have := congrArg Heap.compress a
  exact this

theorem byId (a : PoolOnly h h') : h'.byId = h.byId := by
  have := congrArg Heap.byId a
  exact this

theorem versions (a : PoolOnly h h') : h'.versions = h.versions := by
  have := congrArg Heap.versions a
  exact this

theorem chainOf (a : PoolOnly h h') : h'.chainOf = h.chainOf := by
  funext k
  unfold Heap.chainOf
  cases hc : h.collections.get k.1 with
  | none => rw [a.get_none.mpr hc]
  | some c =>
    obtain ⟨cl, hc'⟩ := a.get_some hc
    rw [hc']
    rfl

theorem codecOf (a : PoolOnly h h') : h'.codecOf = h.codecOf := by
  funext name
  unfold Heap.codecOf
  cases hc : h.collections.get name with
  | none => rw [a.get_none.mpr hc]
  | some c =>
    obtain ⟨cl, hc'⟩ := a.get_some hc
    rw [hc']
    rfl

end PoolOnly

/-- A payload was stored at a location that held none. -/
structure Placed (h : Heap) (payload : Bytes) (loc : RecordLocation) (h' : Heap) : Prop where
  only : PoolOnly h h'
  fresh : h.pool.read loc = none
  read : h'.pool.read = Function.update h.pool.read loc (some payload)
  fsm : h'.FsmInRange
  grows : h.pool.pageCount ≤ h'.pool.pageCount
  stores : ∀ b, h'.pool.Stores b → h.pool.Stores b ∨ b = payload
  steady : ∀ l b, h.pool.Steady l b → h'.pool.Steady l b

/-- Placing may be preceded by changes that no read notices. -/
theorem Placed.after {h h1 h' : Heap} {payload : Bytes} {loc : RecordLocation}
    (p : Placed h1 payload loc h') (only : PoolOnly h h1) (read : h1.pool.read = h.pool.read)
    (grows : h.pool.pageCount ≤ h1.pool.pageCount)
    (stores : ∀ b, h1.pool.Stores b → h.pool.Stores b)
    (steady : ∀ l b, h.pool.Steady l b → h1.pool.Steady l b) : Placed h payload loc h' where
  only := only.trans p.only
  fresh := read ▸ p.fresh
  read := read ▸ p.read
  fsm := p.fsm
  grows := grows.trans p.grows
  stores b hb := (p.stores b hb).imp_left (stores b)
  steady l b hb := p.steady l b (steady l b hb)

theorem fsmInRange_set {h : Heap} (hf : h.FsmInRange) {pid : ℕ} (hp : pid < h.pool.pageCount)
    (free : ℕ) (pool : Pool) (hc : h.pool.pageCount ≤ pool.pageCount) :
    FsmInRange { h with pool := pool, fsm := h.fsm.set pid free } := by
  intro p f hpf
  change (h.fsm.set pid free).free.get p = some f at hpf
  rw [FreeSpaceMap.free_set] at hpf
  by_cases he : p = pid
  · exact he ▸ hp.trans_le hc
  · rw [if_neg he] at hpf
    exact (hf p f hpf).trans_le hc

theorem insertInto_spec {h : Heap} (hf : h.FsmInRange) {pid : ℕ} {page : Page} {payload : Bytes}
    (hp : h.pool.get pid = .ok page) (hne : payload ≠ []) (hfit : page.canFit payload.length) :
    Returns (insertInto pid page payload) h fun loc h' => Placed h payload loc h' := by
  obtain ⟨page', slot, hins⟩ := Page.insert_of_canFit hne hfit
  obtain ⟨hdead, hat⟩ := Page.insert_eq_ok hins
  have hlt := Pool.lt_of_get hp
  have hread : ∀ i, h.pool.read ⟨pid, i⟩ = page.payloadAt i := Pool.read_eq_get hp
  unfold insertInto
  simp only [hins, post_bind, post_attempt_ok, post_modify, post_pure]
  refine ⟨rfl, (hread slot).trans hdead, ?_, fsmInRange_set hf hlt _ _ ?_, ?_, ?_, ?_⟩
  · funext l
    dsimp only
    rw [Pool.read_put hlt, Function.update_apply]
    obtain ⟨p, i⟩ := l
    by_cases hpid : p = pid
    · subst hpid
      rw [if_pos rfl, hat, hread]
      simp
    · simp [hpid]
  · simp
  · simp
  · intro b hb
    rcases Pool.stores_put hb with hb | ⟨i, hi⟩
    · exact .inl hb
    · rw [hat] at hi
      by_cases his : i = slot
      · rw [if_pos his] at hi
        exact .inr (Option.some.inj hi).symm
      · rw [if_neg his] at hi
        rw [Pool.get_eq_ok, Option.map_eq_some_iff] at hp
        obtain ⟨f, hfr, rfl⟩ := hp
        exact .inl ⟨f, List.mem_of_getElem? hfr, f.page, List.mem_cons_self, i, hi⟩
  · intro l b hb
    refine hb.put fun hl => ?_
    have hlb := hb.read
    rw [show l = ⟨pid, l.slot⟩ from hl ▸ rfl, hread] at hlb
    rw [hat, if_neg fun he => ?_, hlb]
    rw [he, hdead] at hlb
    cases hlb

theorem placeFresh_spec {h : Heap} (hf : h.FsmInRange) {payload : Bytes} (hne : payload ≠ [])
    (hlen : payload.length ≤ maxPayload) :
    Returns (placeFresh payload) h fun loc h' => Placed h payload loc h' := by
  unfold placeFresh allocate getPage
  simp only [post_bind]
  change Post (attempt (h.pool.allocate.1.get h.pool.allocate.2))
    { h with pool := h.pool.allocate.1 } _ _
  rw [Pool.get_allocate, post_attempt_ok]
  have hf' : FsmInRange { h with pool := h.pool.allocate.1 } := fun p f hpf => by
    have := hf p f hpf
    simp only [Pool.pageCount_allocate]
    omega
  refine (insertInto_spec hf' (Pool.get_allocate h.pool) hne (Page.canFit_new hlen)).mono
    fun loc h' hp => ?_
  refine hp.after rfl (funext (Pool.read_allocate h.pool)) ?_ (fun b => Pool.stores_allocate)
    fun l b hb => hb.allocate
  simp

theorem place_spec {h : Heap} (hf : h.FsmInRange) {payload : Bytes} (hne : payload ≠ [])
    (hlen : payload.length ≤ maxPayload) :
    Returns (place payload) h fun loc h' => Placed h payload loc h' := by
  unfold place
  simp only [post_bind, post_get]
  cases hfind : h.fsm.find (Page.costOf payload.length) with
  | none => exact placeFresh_spec hf hne hlen
  | some pid =>
    have hneed : 0 < Page.costOf payload.length := by simp [Page.costOf, slotSize]
    obtain ⟨free, hfree, -⟩ := FreeSpaceMap.find_known hfind hneed
    have hlt := hf pid free hfree
    obtain ⟨page, hp⟩ := Pool.get_of_lt hlt
    simp only [getPage, post_bind, post_get, hp, post_attempt_ok]
    by_cases hfit : page.canFit payload.length
    · rw [if_pos hfit]
      exact insertInto_spec hf hp hne hfit
    · rw [if_neg hfit]
      simp only [post_bind, post_modify]
      refine (placeFresh_spec (fsmInRange_set hf hlt page.freeSpace h.pool le_rfl) hne hlen).mono
        fun loc h' hpl => ?_
      exact hpl.after rfl rfl le_rfl (fun _ => id) fun _ _ => id

theorem poolOnly_editCluster (name : String) (f : ClusterState → ClusterState) (h : Heap) :
    PoolOnly h (editCluster name f h) := by
  unfold editCluster
  cases hc : h.collections.get name with
  | none => exact .refl h
  | some c =>
    unfold PoolOnly unclustered setCollection
    simp only [Heap.mk.injEq, true_and, and_true]
    ext k : 1
    simp only [OrdMap.get_mapVal, OrdMap.get_insert]
    by_cases hk : k = name
    · subst hk
      simp [hc]
    · simp [hk]

theorem pool_editCluster (name : String) (f : ClusterState → ClusterState) (h : Heap) :
    (editCluster name f h).pool = h.pool := by
  unfold editCluster
  cases h.collections.get name <;> rfl

theorem fsm_editCluster (name : String) (f : ClusterState → ClusterState) (h : Heap) :
    (editCluster name f h).fsm = h.fsm := by
  unfold editCluster
  cases h.collections.get name <;> rfl

theorem FsmInRange.editCluster {h : Heap} (hf : h.FsmInRange) (name : String)
    (f : ClusterState → ClusterState) : FsmInRange (editCluster name f h) := by
  unfold FsmInRange
  rw [fsm_editCluster, pool_editCluster]
  exact hf

theorem Placed.editCluster {h h' : Heap} {payload : Bytes} {loc : RecordLocation}
    (p : Placed h payload loc h') (name : String) (f : ClusterState → ClusterState) :
    Placed h payload loc (editCluster name f h') := by
  refine ⟨p.only.trans (poolOnly_editCluster name f h'), p.fresh, ?_, p.fsm.editCluster name f, ?_,
    ?_, ?_⟩
  all_goals rw [pool_editCluster]
  · exact p.read
  · exact p.grows
  · exact p.stores
  · exact p.steady

theorem placeKeyed_spec {h : Heap} (hf : h.FsmInRange) {payload : Bytes} (hne : payload ≠ [])
    (hlen : payload.length ≤ maxPayload) (name : String) (key : Int64) :
    Returns (placeKeyed name key payload) h fun loc h' => Placed h payload loc h' := by
  have hf1 := hf.editCluster name id
  have hback : ∀ {loc h'}, Placed (editCluster name id h) payload loc h' →
      Placed h payload loc h' := fun {loc h'} p => by
    refine p.after (poolOnly_editCluster name id h) ?_ ?_ ?_ ?_
    all_goals rw [pool_editCluster]
    · exact fun _ => id
    · exact fun _ _ => id
  unfold placeKeyed
  simp only [post_bind, post_modify, post_get]
  split
  · next pid hfind =>
    have hfit := List.find?_some hfind
    cases hp : (editCluster name id h).pool.get pid with
    | error e => simp [hp] at hfit
    | ok page =>
      simp only [hp] at hfit
      simp only [getPage, post_bind, post_get, hp, post_attempt_ok]
      refine (insertInto_spec hf1 hp hne hfit).mono fun loc h' p => ?_
      exact hback (p.editCluster name _)
  · simp only [post_bind]
    refine (placeFresh_spec hf1 hne hlen).mono fun loc h' p => ?_
    exact hback (p.editCluster name _)

/-! ## Freeing -/

/-- The slots at these locations were emptied. -/
structure Released (h : Heap) (locs : List RecordLocation) (h' : Heap) : Prop where
  only : h' = { h with pool := h'.pool, fsm := h'.fsm }
  read : ∀ l, h'.pool.read l = if l ∈ locs then none else h.pool.read l
  count : h'.pool.pageCount = h.pool.pageCount
  fsm : h.FsmInRange → h'.FsmInRange
  stores : ∀ b, h'.pool.Stores b → h.pool.Stores b
  steady : ∀ l b, l ∉ locs → h.pool.Steady l b → h'.pool.Steady l b

theorem Released.refl (h : Heap) : Released h [] h :=
  ⟨rfl, fun _ => by simp, rfl, id, fun _ => id, fun _ _ _ => id⟩

theorem Released.trans {h h1 h2 : Heap} {xs ys : List RecordLocation} (a : Released h xs h1)
    (b : Released h1 ys h2) : Released h (xs ++ ys) h2 where
  only := by
    rw [b.only, a.only]
  read l := by
    rw [b.read, a.read]
    by_cases hx : l ∈ xs <;> by_cases hy : l ∈ ys <;> simp [hx, hy]
  count := b.count.trans a.count
  fsm := fun hf => b.fsm (a.fsm hf)
  stores x hx := a.stores x (b.stores x hx)
  steady l x hl hx := by
    rw [List.mem_append, not_or] at hl
    exact b.steady l x hl.2 (a.steady l x hl.1 hx)

theorem deleteAt_spec {h : Heap} {loc : RecordLocation} (hl : loc.page < h.pool.pageCount) :
    Returns (deleteAt loc) h fun _ h' => Released h [loc] h' := by
  obtain ⟨page, hp⟩ := Pool.get_of_lt hl
  have hread : ∀ i, h.pool.read ⟨loc.page, i⟩ = page.payloadAt i := Pool.read_eq_get hp
  unfold deleteAt Page.delete
  simp only [getPage, post_bind, post_get, hp, post_attempt_ok]
  by_cases hlive : (page.payloadAt loc.slot).isSome
  · rw [if_pos hlive]
    simp only [post_modify]
    refine ⟨rfl, fun l => ?_, Pool.pageCount_put _ _ _, fun hf => ?_, fun b hb => ?_,
      fun l b hne hb => ?_⟩
    · simp only [Pool.read_put hl, Page.payloadAt_kill, List.mem_singleton]
      obtain ⟨p, i⟩ := l
      obtain ⟨q, j⟩ := loc
      by_cases hpq : p = q
      · subst hpq
        by_cases hij : i = j
        · simp [hij]
        · simp [hij, hread]
      · simp [hpq]
    · intro p f hpf
      simpa using hf p f hpf
    · rcases Pool.stores_put hb with hb | ⟨i, hi⟩
      · exact hb
      · rw [Page.payloadAt_kill] at hi
        by_cases his : i = loc.slot
        · rw [if_pos his] at hi
          cases hi
        · rw [if_neg his] at hi
          rw [Pool.get_eq_ok, Option.map_eq_some_iff] at hp
          obtain ⟨f, hfr, rfl⟩ := hp
          exact ⟨f, List.mem_of_getElem? hfr, f.page, List.mem_cons_self, i, hi⟩
    · refine hb.put fun hpage => ?_
      have hslot : l.slot ≠ loc.slot := fun he => hne (by
        rw [List.mem_singleton]
        cases l
        cases loc
        simp_all)
      have hlb := hb.read
      rw [show l = ⟨loc.page, l.slot⟩ from hpage ▸ rfl, hread] at hlb
      rw [Page.payloadAt_kill, if_neg hslot, hlb]
  · rw [if_neg hlive]
    have hdead : h.pool.read loc = none := by
      rw [show loc = ⟨loc.page, loc.slot⟩ from rfl, hread]
      simpa using hlive
    refine ⟨rfl, fun l => ?_, rfl, id, fun _ => id, fun _ _ _ => id⟩
    by_cases hll : l = loc
    · simp [hll, hdead]
    · simp [hll]

theorem settle_spec {h : Heap} {pid : ℕ} (hl : pid < h.pool.pageCount) :
    Returns (settle pid) h fun _ h' => Released h [] h' := by
  obtain ⟨page, hp⟩ := Pool.get_of_lt hl
  have hread : ∀ i, h.pool.read ⟨pid, i⟩ = page.payloadAt i := Pool.read_eq_get hp
  unfold settle
  simp only [getPage, post_bind, post_get, hp, post_attempt_ok, post_modify]
  generalize hpage : (if 0 < page.fragmentation then page.compact else page) = page'
  have hat : ∀ i, page'.payloadAt i = page.payloadAt i := fun i => by
    rw [← hpage]
    split
    · exact Page.payloadAt_compact page i
    · rfl
  refine ⟨rfl, fun l => ?_, Pool.pageCount_put _ _ _, fun hf => fsmInRange_set hf hl _ _ ?_,
    fun b hb => ?_, fun l b hne hb => ?_⟩
  · rw [Pool.read_put hl, hat]
    obtain ⟨p, i⟩ := l
    by_cases hpq : p = pid
    · subst hpq
      simp [hread]
    · simp [hpq]
  · simp
  · rcases Pool.stores_put hb with hb | ⟨i, hi⟩
    · exact hb
    · rw [hat] at hi
      rw [Pool.get_eq_ok, Option.map_eq_some_iff] at hp
      obtain ⟨f, hfr, rfl⟩ := hp
      exact ⟨f, List.mem_of_getElem? hfr, f.page, List.mem_cons_self, i, hi⟩
  · refine hb.put fun hpage => ?_
    have hlb := hb.read
    rw [show l = ⟨pid, l.slot⟩ from hpage ▸ rfl, hread] at hlb
    rw [hat, hlb]

theorem deleteAll_spec (locs : List RecordLocation) {h : Heap}
    (hl : ∀ l ∈ locs, l.page < h.pool.pageCount) :
    Returns (forEach deleteAt locs) h fun _ h' => Released h locs h' := by
  induction locs generalizing h with
  | nil => exact Released.refl h
  | cons loc locs ih =>
    simp only [forEach, post_bind]
    refine (deleteAt_spec (hl loc List.mem_cons_self)).mono fun _ h1 a => ?_
    refine (ih fun l hm => ?_).mono fun _ h2 b => a.trans b
    rw [a.count]
    exact hl l (List.mem_cons_of_mem _ hm)

theorem settleAll_spec (pids : List ℕ) {h : Heap} (hl : ∀ p ∈ pids, p < h.pool.pageCount) :
    Returns (forEach settle pids) h fun _ h' => Released h [] h' := by
  induction pids generalizing h with
  | nil => exact Released.refl h
  | cons pid pids ih =>
    simp only [forEach, post_bind]
    refine (settle_spec (hl pid List.mem_cons_self)).mono fun _ h1 a => ?_
    refine (ih fun p hm => ?_).mono fun _ h2 b => a.trans b
    rw [a.count]
    exact hl p (List.mem_cons_of_mem _ hm)

theorem mem_touchedPages {locs : List RecordLocation} {p : ℕ} (h : p ∈ touchedPages locs) :
    ∃ l ∈ locs, l.page = p := by
  have key : ∀ (ls : List RecordLocation) (seen : List ℕ),
      p ∈ ls.foldl (fun seen loc => if loc.page ∈ seen then seen else seen ++ [loc.page]) seen →
        p ∈ seen ∨ ∃ l ∈ ls, l.page = p := by
    intro ls
    induction ls with
    | nil => exact fun _ => .inl
    | cons l ls ih =>
      intro seen hm
      rcases ih _ hm with hm | ⟨m, hml, hp⟩
      · dsimp only at hm
        by_cases hl : l.page ∈ seen
        · rw [if_pos hl] at hm
          exact .inl hm
        · rw [if_neg hl, List.mem_append, List.mem_singleton] at hm
          exact hm.imp_right fun he => ⟨l, List.mem_cons_self, he.symm⟩
      · exact .inr ⟨m, List.mem_cons_of_mem _ hml, hp⟩
  exact (key locs [] h).resolve_left (by simp)

/-- Freeing slots on pages of the file succeeds, and does that and nothing else. -/
theorem release_spec (locs : List RecordLocation) {h : Heap}
    (hl : ∀ l ∈ locs, l.page < h.pool.pageCount) :
    Returns (release locs) h fun _ h' => Released h locs h' := by
  unfold release
  simp only [post_bind]
  refine (deleteAll_spec locs hl).mono fun _ h1 a => ?_
  refine (settleAll_spec _ fun p hp => ?_).mono fun _ h2 b => ?_
  · obtain ⟨l, hm, rfl⟩ := mem_touchedPages hp
    rw [a.count]
    exact hl l hm
  · have := a.trans b
    rwa [List.append_nil] at this

end Heap

end Adabt.Storage
