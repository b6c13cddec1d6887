import Adabt.Library.Sequences
import Adabt.Opt.Registry
import Mathlib.Logic.Relation

/-! # The order of the optimizations

A depth-first search puts every optimization after its prerequisites. The names it is
within are its path, those it has left are its output, and it fails on a name that is
met again on the path. -/

set_option autoImplicit false

namespace Adabt.Opt
open Adabt.Core Adabt.Library Relation

variable {Ctx : Type}

/-- How far the visit of a name has come: `1` and `2`, with no entry before either. -/
inductive Mark where
  | visiting
  | visited
  deriving DecidableEq, Repr

/-- What a search fails with, if it has fuel enough to end. -/
abbrev Search (α : Type) := ExceptT String Option α

structure Visit where
  visited : OrdMap String Mark
  out : List String
  path : List String

namespace Visit

def start : Visit := ⟨∅, [], []⟩

def enter (s : Visit) (name : String) : Visit :=
  { s with visited := s.visited.insert name .visiting, path := s.path ++ [name] }

def leave (s : Visit) (name : String) : Visit :=
  { visited := s.visited.insert name .visited
    out := s.out ++ [name]
    path := s.path.dropLast }

end Visit

namespace Registry

/-- The prerequisites one after the other, up to the first that fails. -/
def visitEach (r : Registry Ctx) (visit : String → Visit → Search Visit) (name : String) :
    List String → Visit → Search Visit
  | [], s => pure s
  | p :: ps, s => match r.info p with
    | none => throw (name ++ " requires unregistered `" ++ p ++ "`")
    | some m => do r.visitEach visit name ps (← visit m.name s)

def visit (r : Registry Ctx) : ℕ → String → Visit → Search Visit
  | 0, _, _ => .mk none
  | fuel + 1, name, s => match s.visited.get name with
    | some .visited => pure s
    | some .visiting =>
      throw ("prerequisite cycle: " ++ String.intercalate " -> " (s.path ++ [name]))
    | none => do
      let prerequisites := ((r.info name).map OptMeta.prerequisites).getD []
      let s ← r.visitEach (r.visit fuel) name prerequisites (s.enter name)
      pure (s.leave name)

/-- Visit every name, each with a path of its own. -/
def visitAll (r : Registry Ctx) (fuel : ℕ) : List String → Visit → Search Visit
  | [], s => pure s
  | name :: names, s => do r.visitAll fuel names (← r.visit fuel name { s with path := [] })

def dependencyOrder (r : Registry Ctx) (fuel : ℕ) : Search (List String) :=
  Visit.out <$> r.visitAll fuel r.order .start

def Requires (r : Registry Ctx) (name p : String) : Prop :=
  ∃ m, r.info name = some m ∧ p ∈ m.prerequisites

/-- Some prerequisite is not registered, or some name requires itself. -/
def Unorderable (r : Registry Ctx) : Prop :=
  (∃ name p, r.Requires name p ∧ r.info p = none) ∨ ∃ name, TransGen r.Requires name name

end Registry

/-! ## What a visit keeps -/

/-- The names that were left are the output, each after what it requires, and those that
were entered only are the path. -/
structure Searching (r : Registry Ctx) (s : Visit) : Prop where
  finished : ∀ name, s.visited.get name = some .visited ↔ name ∈ s.out
  entered : ∀ name, s.visited.get name = some .visiting ↔ name ∈ s.path
  nodup : s.out.Nodup
  requiring : Requiring r.Requires s.out
  registered : ∀ name ∈ s.out, (r.info name).isSome

/-- What a visit changes: the output grows, and the path is again what it was. -/
structure Later (s t : Visit) : Prop where
  out : s.out ⊆ t.out
  path : t.path = s.path
  visited : ∀ name, t.visited.get name = none → s.visited.get name = none

theorem Later.refl (s : Visit) : Later s s := ⟨fun _ h => h, rfl, fun _ h => h⟩

theorem Later.trans {s t u : Visit} (h : Later s t) (h' : Later t u) : Later s u where
  out := fun _ hname => h'.out (h.out hname)
  path := h'.path.trans h.path
  visited := fun name hname => h.visited name (h'.visited name hname)

/-- A name entered and left again is one more of the output. -/
theorem Later.enter_leave {s t : Visit} {name : String} (h : Later (s.enter name) t) :
    Later s (t.leave name) where
  out := fun _ hother => List.mem_append_left _ (h.out hother)
  path := by rw [Visit.leave, h.path, Visit.enter, List.dropLast_concat]
  visited := by
    intro other hother
    rw [Visit.leave, OrdMap.get_insert] at hother
    split_ifs at hother with heq
    have hbefore := h.visited other hother
    rwa [Visit.enter, OrdMap.get_insert_ne _ _ heq] at hbefore

section Searching

variable {r : Registry Ctx} {s : Visit} {name : String}

theorem searching_start : Searching r .start where
  finished := fun _ => by simp [Visit.start]
  entered := fun _ => by simp [Visit.start]
  nodup := List.nodup_nil
  requiring := requiring_nil
  registered := fun _ h => by cases h

theorem Searching.enter (h : Searching r s) (hnew : s.visited.get name = none) :
    Searching r (s.enter name) where
  finished := by
    intro other
    rw [Visit.enter, OrdMap.get_insert, ← h.finished]
    split_ifs with heq
    · simp [heq, hnew]
    · rfl
  entered := by
    intro other
    rw [Visit.enter, OrdMap.get_insert, List.mem_append, List.mem_singleton, ← h.entered]
    split_ifs with heq
    · simp [heq]
    · simp [heq]
  nodup := h.nodup
  requiring := h.requiring
  registered := h.registered

/-- A name is left after its prerequisites. -/
theorem Searching.leave {t : Visit} (hnew : name ∉ s.path) (h : Searching r t)
    (hpath : t.path = s.path ++ [name]) (hname : (r.info name).isSome)
    (hreq : ∀ p, r.Requires name p → p ∈ t.out) : Searching r (t.leave name) := by
  have hopen : t.visited.get name = some .visiting :=
    (h.entered name).mpr (hpath ▸ List.mem_append_right _ List.mem_cons_self)
  have hout : name ∉ t.out := by
    intro hmem
    rw [(h.finished name).mpr hmem] at hopen
    cases hopen
  constructor
  · intro other
    rw [Visit.leave, OrdMap.get_insert, List.mem_append, List.mem_singleton, ← h.finished]
    split_ifs with heq
    · simp [heq]
    · simp [heq]
  · intro other
    rw [Visit.leave, OrdMap.get_insert, hpath, List.dropLast_concat]
    split_ifs with heq
    · simp [heq, hnew]
    · rw [h.entered, hpath, List.mem_append, List.mem_singleton, or_iff_left heq]
  · exact List.nodup_append.mpr ⟨h.nodup, List.nodup_singleton name, by
      intro a ha b hb heq
      rw [List.mem_singleton.mp hb] at heq
      exact hout (heq ▸ ha)⟩
  · exact h.requiring.snoc hreq
  · intro other hmem
    rcases List.mem_append.mp hmem with hmem | hmem
    · exact h.registered other hmem
    · rwa [List.mem_singleton.mp hmem]

end Searching

/-- The registered names not visited yet. -/
def unvisited (r : Registry Ctx) (s : Visit) : List String :=
  r.items.keys.filter fun name => (s.visited.get name).isNone

theorem Later.unvisited_le {r : Registry Ctx} {s t : Visit} (h : Later s t) :
    (unvisited r t).length ≤ (unvisited r s).length := by
  rw [unvisited, unvisited, ← List.countP_eq_length_filter, ← List.countP_eq_length_filter]
  apply List.countP_mono_left
  intro name _ hname
  rw [Option.isNone_iff_eq_none] at hname ⊢
  exact h.visited name hname

theorem unvisited_enter {r : Registry Ctx} {s : Visit} {name : String}
    (hname : (r.info name).isSome) (hnew : s.visited.get name = none) :
    (unvisited r (s.enter name)).length < (unvisited r s).length := by
  have henter : unvisited r (s.enter name) = (unvisited r s).filter fun other => other ≠ name := by
    rw [unvisited, unvisited, List.filter_filter]
    congr 1
    ext other
    rw [Visit.enter, OrdMap.get_insert]
    split_ifs with heq
    · simp [heq]
    · simp [heq]
  have hkey : name ∈ unvisited r s := by
    rw [Registry.info, Option.isSome_map] at hname
    exact List.mem_filter.mpr ⟨(r.items.mem_keys name).mpr hname, by rw [hnew]; rfl⟩
  rw [henter, List.length_filter_lt_length_iff_exists]
  exact ⟨name, hkey, by simp⟩

/-- What comes of visiting some names. -/
def Outcome (r : Registry Ctx) (s : Visit) (names : List String) (x : Search Visit) : Prop :=
  match x.run with
  | none => False
  | some (.error _) => r.Unorderable
  | some (.ok t) => Searching r t ∧ Later s t ∧ names ⊆ t.out

theorem Outcome.bind {r : Registry Ctx} {s s' : Visit} {names names' : List String}
    {x : Search Visit} {f : Visit → Search Visit} (hx : Outcome r s names x)
    (hf : ∀ t, Searching r t → Later s t → names ⊆ t.out → Outcome r s' names' (f t)) :
    Outcome r s' names' (x >>= f) := by
  obtain _ | _ | t : Option (Except String Visit) := x
  · exact hx.elim
  · exact hx
  · exact hf t hx.1 hx.2.1 hx.2.2

theorem Outcome.imp {r : Registry Ctx} {s s' : Visit} {names names' : List String}
    {x : Search Visit} (hx : Outcome r s names x)
    (h : ∀ t, Later s t → names ⊆ t.out → Later s' t ∧ names' ⊆ t.out) :
    Outcome r s' names' x := by
  obtain _ | _ | t : Option (Except String Visit) := x
  · exact hx
  · exact hx
  · exact ⟨hx.1, h t hx.2.1 hx.2.2⟩

namespace Registry

theorem info_name {r : Registry Ctx} {name : String} {m : OptMeta} (h : r.info name = some m) :
    m.name = name := by
  obtain ⟨o, ho, rfl⟩ := Option.map_eq_some_iff.mp h
  exact r.named name o ho

/-- If one visit ends as it should, so do visits of prerequisites. -/
theorem visitEach_outcome {r : Registry Ctx} {visit : String → Visit → Search Visit}
    {name : String} {n : ℕ} {path : List String}
    (hvisit : ∀ p t, Searching r t → t.path = path → (r.info p).isSome → r.Requires name p →
      (unvisited r t).length ≤ n → Outcome r t [p] (visit p t))
    {ps : List String} {s : Visit} (hs : Searching r s) (hpath : s.path = path)
    (hps : ∀ p ∈ ps, r.Requires name p) (hn : (unvisited r s).length ≤ n) :
    Outcome r s ps (r.visitEach visit name ps s) := by
  induction ps generalizing s with
  | nil => exact ⟨hs, .refl s, List.nil_subset _⟩
  | cons p ps ih =>
    rw [visitEach]
    cases hp : r.info p with
    | none => exact .inl ⟨name, p, hps p List.mem_cons_self, hp⟩
    | some m =>
      dsimp only
      rw [info_name hp]
      apply (hvisit p s hs hpath (by rw [hp]; rfl) (hps p List.mem_cons_self) hn).bind
      intro t ht hlater hmem
      apply (ih ht (hlater.path.trans hpath) (fun q hq => hps q (List.mem_cons_of_mem _ hq))
        (hlater.unvisited_le.trans hn)).imp
      intro u hlater' hmem'
      exact ⟨hlater.trans hlater',
        List.cons_subset.mpr ⟨hlater'.out (hmem List.mem_cons_self), hmem'⟩⟩

theorem visit_outcome {r : Registry Ctx} {fuel : ℕ} {name : String} {s : Visit}
    (hs : Searching r s) (hname : (r.info name).isSome)
    (hpath : ∀ a ∈ s.path, TransGen r.Requires a name) (hfuel : (unvisited r s).length < fuel) :
    Outcome r s [name] (r.visit fuel name s) := by
  induction fuel generalizing name s with
  | zero => cases hfuel
  | succ fuel ih =>
    rw [visit]
    cases hmark : s.visited.get name with
    | some mark =>
      cases mark with
      | visited =>
        exact ⟨hs, .refl s, List.cons_subset.mpr ⟨(hs.finished name).mp hmark, List.nil_subset _⟩⟩
      | visiting => exact .inr ⟨name, hpath name ((hs.entered name).mp hmark)⟩
    | none =>
      obtain ⟨m, hm⟩ := Option.isSome_iff_exists.mp hname
      have hnew : name ∉ s.path := by
        intro hmem
        rw [(hs.entered name).mpr hmem] at hmark
        cases hmark
      have hreq : ∀ p, r.Requires name p ↔ p ∈ m.prerequisites := by
        intro p
        constructor
        · rintro ⟨m', hm', hp⟩
          rwa [Option.some.inj (hm.symm.trans hm')]
        · exact fun hp => ⟨m, hm, hp⟩
      have hless := unvisited_enter hname hmark
      have heach : Outcome r (s.enter name) m.prerequisites
          (r.visitEach (r.visit fuel) name m.prerequisites (s.enter name)) := by
        refine visitEach_outcome (n := fuel - 1) ?_ (hs.enter hmark) rfl
          (fun p hp => (hreq p).mpr hp) (by omega)
        intro p t ht htpath hp hnp hn
        refine ih ht hp ?_ (by omega)
        intro a ha
        rw [htpath] at ha
        rcases List.mem_append.mp ha with ha | ha
        · exact (hpath a ha).tail hnp
        · rw [List.mem_singleton.mp ha]
          exact .single hnp
      rw [hm]
      apply heach.bind
      intro t ht hlater hmem
      exact ⟨.leave hnew ht hlater.path hname fun p hp => hmem ((hreq p).mp hp), hlater.enter_leave,
        List.cons_subset.mpr ⟨List.mem_append_right _ List.mem_cons_self, List.nil_subset _⟩⟩

theorem visitAll_outcome {r : Registry Ctx} {fuel : ℕ} {names : List String} {s : Visit}
    (hs : Searching r s) (hpath : s.path = []) (hnames : ∀ name ∈ names, (r.info name).isSome)
    (hfuel : (unvisited r s).length < fuel) : Outcome r s names (r.visitAll fuel names s) := by
  induction names generalizing s with
  | nil => exact ⟨hs, .refl s, List.nil_subset _⟩
  | cons name names ih =>
    have hsame : { s with path := [] } = s := by rw [← hpath]
    rw [visitAll, hsame]
    have hone : Outcome r s [name] (r.visit fuel name s) := by
      apply visit_outcome hs (hnames name List.mem_cons_self) _ hfuel
      intro a ha
      rw [hpath] at ha
      cases ha
    apply hone.bind
    intro t ht hlater hmem
    apply (ih ht (hlater.path.trans hpath) (fun other h => hnames other (List.mem_cons_of_mem _ h))
      (hlater.unvisited_le.trans_lt hfuel)).imp
    intro u hlater' hmem'
    exact ⟨hlater.trans hlater',
      List.cons_subset.mpr ⟨hlater'.out (hmem List.mem_cons_self), hmem'⟩⟩

end Registry

/-! ## More fuel -/

/-- A search that ended comes out the same. -/
def Agrees {α : Type} (x y : Search α) : Prop := x.run ≠ none → y = x

theorem Agrees.bind {α β : Type} {x y : Search α} {f g : α → Search β} (h : Agrees x y)
    (hf : ∀ a, Agrees (f a) (g a)) : Agrees (x >>= f) (y >>= g) := by
  obtain _ | _ | a : Option (Except String α) := x
  · exact fun hne => absurd rfl hne
  · intro _
    rw [h fun hne => by cases hne]
    rfl
  · intro hne
    rw [h fun hne => by cases hne]
    exact hf a hne

namespace Registry

theorem visitEach_agrees (r : Registry Ctx) {visit visit' : String → Visit → Search Visit}
    (h : ∀ p s, Agrees (visit p s) (visit' p s)) (name : String) (ps : List String) (s : Visit) :
    Agrees (r.visitEach visit name ps s) (r.visitEach visit' name ps s) := by
  induction ps generalizing s with
  | nil => exact fun _ => rfl
  | cons p ps ih =>
    rw [visitEach, visitEach]
    cases r.info p with
    | none => exact fun _ => rfl
    | some m => exact (h m.name s).bind fun t => ih t

theorem visit_agrees (r : Registry Ctx) {fuel more : ℕ} (hle : fuel ≤ more) (name : String)
    (s : Visit) : Agrees (r.visit fuel name s) (r.visit more name s) := by
  induction fuel generalizing more name s with
  | zero => exact fun hne => absurd rfl hne
  | succ fuel ih =>
    cases more with
    | zero => omega
    | succ more =>
      rw [visit, visit]
      cases s.visited.get name with
      | some mark =>
        cases mark with
        | visiting => exact fun _ => rfl
        | visited => exact fun _ => rfl
      | none =>
        apply Agrees.bind
        · exact r.visitEach_agrees (fun p t => ih (Nat.le_of_succ_le_succ hle) p t) _ _ _
        · exact fun _ _ => rfl

theorem visitAll_agrees (r : Registry Ctx) {fuel more : ℕ} (hle : fuel ≤ more)
    (names : List String) (s : Visit) :
    Agrees (r.visitAll fuel names s) (r.visitAll more names s) := by
  induction names generalizing s with
  | nil => exact fun _ => rfl
  | cons name names ih => exact (r.visit_agrees hle name _).bind fun t => ih t

/-! ## The order -/

theorem Requires.registered {r : Registry Ctx} {name p : String} (h : r.Requires name p) :
    (r.info name).isSome := by
  obtain ⟨m, hm, -⟩ := h
  rw [hm]
  rfl

/-- An order that came out has every registered name once, after what it requires. -/
theorem sorted_of_searching {r : Registry Ctx} {s : Visit} (h : Searching r s)
    (hall : r.order ⊆ s.out) : s.out.Perm r.items.keys ∧
      (∀ name p, r.Requires name p → s.out.idxOf p < s.out.idxOf name) ∧ ¬r.Unorderable := by
  have hkey : ∀ name, name ∈ s.out ↔ (r.info name).isSome := by
    intro name
    refine ⟨h.registered name, fun hname => hall ((r.listed name).mpr ?_)⟩
    rwa [Registry.info, Option.isSome_map] at hname
  refine ⟨?_, ?_, ?_⟩
  · rw [List.perm_ext_iff_of_nodup h.nodup r.items.keys_nodup]
    intro name
    rw [hkey, r.items.mem_keys, Registry.info, Option.isSome_map, Registry.get]
  · exact fun name p hp => h.requiring.idxOf_lt ((hkey name).mpr hp.registered) hp
  · rintro (⟨name, p, hp, hnone⟩ | ⟨name, hcycle⟩)
    · obtain ⟨before, after, heq⟩ := List.append_of_mem ((hkey name).mpr hp.registered)
      have hmem : p ∈ s.out := by
        rw [heq]
        exact List.mem_append_left _ (h.requiring before name after heq p hp)
      have hsome := (hkey p).mp hmem
      rw [hnone] at hsome
      cases hsome
    · exact h.requiring.acyclic (fun a b hb => (hkey a).mpr hb.registered) name hcycle

/-- The search ends, with an order just if there is one. -/
theorem dependency_order_sorts (r : Registry Ctx) :
    ∃ result : Except String (List String),
      (∀ fuel, r.items.size < fuel → (r.dependencyOrder fuel).run = some result) ∧
        ((∃ out, result = .ok out) ↔
          (∀ name p, r.Requires name p → (r.get p).isSome) ∧
            ∀ name, ¬TransGen r.Requires name name) ∧
          ∀ out, result = .ok out → out.Perm r.items.keys ∧
            ∀ name p, r.Requires name p → out.idxOf p < out.idxOf name := by
  have hstart : (unvisited r .start).length ≤ r.items.size := by
    rw [unvisited]
    exact (List.length_filter_le _ _).trans (by rw [OrdMap.keys, List.length_map, OrdMap.size])
  have hnames : ∀ name ∈ r.order, (r.info name).isSome := by
    intro name hname
    rw [Registry.info, Option.isSome_map]
    exact (r.listed name).mp hname
  have houtcome : Outcome r .start r.order (r.visitAll (r.items.size + 1) r.order .start) :=
    visitAll_outcome searching_start rfl hnames (Nat.lt_succ_of_le hstart)
  rw [Outcome] at houtcome
  cases hrun : (r.visitAll (r.items.size + 1) r.order .start).run with
  | none =>
    rw [hrun] at houtcome
    exact houtcome.elim
  | some result =>
    rw [hrun] at houtcome
    have hfuel : ∀ fuel, r.items.size < fuel →
        (r.dependencyOrder fuel).run = some (result.map Visit.out) := by
      intro fuel hlt
      have hsame := r.visitAll_agrees hlt r.order .start (by rw [hrun]; exact Option.some_ne_none _)
      rw [dependencyOrder, hsame, ExceptT.run_map, hrun]
      rfl
    refine ⟨_, hfuel, ?_⟩
    cases result with
    | error e =>
      refine ⟨iff_of_false ?_ ?_, fun out h => by cases h⟩
      · rintro ⟨out, h⟩
        cases h
      · rintro ⟨hregistered, hacyclic⟩
        rcases houtcome with ⟨name, p, hp, hnone⟩ | ⟨name, hcycle⟩
        · have hsome := hregistered name p hp
          rw [← Option.isSome_map, ← info, hnone] at hsome
          cases hsome
        · exact hacyclic name hcycle
    | ok t =>
      obtain ⟨hsearching, -, hall⟩ := houtcome
      obtain ⟨hperm, hfollows, horderable⟩ := sorted_of_searching hsearching hall
      refine ⟨iff_of_true ⟨t.out, rfl⟩ ⟨fun name p hp => ?_, fun name h => ?_⟩, ?_⟩
      · cases hget : r.get p with
        | some o => rfl
        | none => exact absurd (.inl ⟨name, p, hp, by rw [info, hget]; rfl⟩) horderable
      · exact horderable (.inr ⟨name, h⟩)
      · intro out hout
        obtain rfl : t.out = out := Except.ok.inj hout
        exact ⟨hperm, hfollows⟩

end Registry

end Adabt.Opt
