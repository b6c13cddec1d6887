import Adabt.Engine.Matching
import Adabt.Engine.Optimizations
import Adabt.Indexing.Index

/-! # Names and scopes taken apart

The catalog, the planner and `verify` know an index by its name, and an optimization
by a scope that puts the collection and a dot before the name. Field names without a
separator and a collection without a dot can be told apart again, and no others. -/

set_option autoImplicit false

namespace Adabt.Indexing

def compositeFields (name : String) : List String := splitAll compositeSep name

def coveringParts (name : String) : String × List String :=
  match splitOnce coverSep name with
  | none => (name, [])
  | some (field, rest) => (field, splitAll compositeSep rest)

def partialParts (name : String) : String × Option String :=
  match splitOnce partialSep name with
  | none => (name, none)
  | some (field, condition) => (field, some condition)

/-- What an index is taken for by its name: the `IndexShape` of the engine. -/
inductive NameShape where
  | ordinary (field : String)
  | covering (field : String)
  | composite (fields : List String)
  | partialIndex (field : String)
deriving DecidableEq

def classifyIndex (name : String) : NameShape :=
  if coverSep ∈ name.toList then .covering (coveringParts name).1
  else if partialSep ∈ name.toList then .partialIndex (partialParts name).1
  else if compositeSep ∈ name.toList then .composite (compositeFields name)
  else .ordinary name

def IndexShape.nameShape : IndexShape → NameShape
  | single f => .ordinary f
  | covering f _ => .covering f
  | composite fields => .composite fields
  | partialIndex f _ _ => .partialIndex f

/-! ## Parts -/

theorem compositeFields_compositeName {fields : List String}
    (h : ∀ f ∈ fields, compositeSep ∉ f.toList) (hne : fields ≠ []) :
    compositeFields (compositeName fields) = fields :=
  Engine.splitAll_join h hne

/-- No fields at all and one field without a name are joined to the same. -/
example : compositeFields (compositeName []) = [""] := by decide

theorem coveringParts_coveringName {f : String} {covers : List String} (hf : coverSep ∉ f.toList)
    (hc : ∀ c ∈ covers, compositeSep ∉ c.toList) :
    coveringParts (coveringName f covers) = (f, covers) := by
  rw [coveringName]
  split_ifs with hempty
  · rw [List.isEmpty_iff.mp hempty, coveringParts, splitOnce_of_not_mem hf]
  · have hne : covers ≠ [] := fun h => hempty (List.isEmpty_iff.mpr h)
    rw [coveringParts, splitOnce_joined hf]
    dsimp only
    rw [Engine.splitAll_join hc hne]

theorem partialParts_partialName {f : String} (hf : partialSep ∉ f.toList) (condition : String) :
    partialParts (partialName f condition) = (f, some condition) := by
  rw [partialParts, partialName, splitOnce_joined hf]

theorem classifyIndex_plain {name : String} (h : Plain name) :
    classifyIndex name = .ordinary name := by
  rw [classifyIndex, if_neg h.2.1, if_neg h.2.2, if_neg h.1]

/-- Only a name without separators passes for that of a field. -/
theorem plain_of_classifyIndex {name field : String} (h : classifyIndex name = .ordinary field) :
    Plain name := by
  rw [classifyIndex] at h
  split_ifs at h with hcover hpartial hcomposite
  exact ⟨hcomposite, hcover, hpartial⟩

end Adabt.Indexing

namespace Adabt.Engine
open Adabt.Core Adabt.Indexing Adabt.Ir Adabt.Library Adabt.Storage

/-! ## Conditions -/

/-- The text that a partial index of this condition is named with. -/
structure Encoded (condition : Expr) (encoded : String) : Prop where
  ordered : ∀ v ∈ literals condition, v.Ordered
  small : encoded.utf8ByteSize < 2 ^ 64
  encodes : encodeExprHex condition = .ok encoded

theorem toHex_injective {b b' : Bytes} (h : toHex b = toHex b') : b = b' := by
  have hb := (fromHex_toHex b).1
  rw [h, (fromHex_toHex b').1] at hb
  exact (Except.ok.inj hb).symm

theorem encodeExprHex_eq_ok {e : Expr} {s : String} (h : encodeExprHex e = .ok s) :
    ∃ b, encodeExpr e = .ok b ∧ s = toHex b := by
  rw [encodeExprHex] at h
  simp only [bind_eq_ok, pure, Except.pure, Except.ok.injEq] at h
  obtain ⟨b, hb, rfl⟩ := h
  exact ⟨b, hb, rfl⟩

/-- Conditions with one text are one condition. -/
theorem Encoded.unique {e e' : Expr} {s : String} (h : Encoded e s) (h' : Encoded e' s) :
    e = e' := by
  obtain ⟨b, hb, rfl⟩ := encodeExprHex_eq_ok h.encodes
  obtain ⟨b', hb', hsame⟩ := encodeExprHex_eq_ok h'.encodes
  obtain rfl := toHex_injective hsame
  have hsmall := h.small
  rw [(fromHex_toHex b).2] at hsmall
  exact (putExpr_cancel e e' _ b b hb hb' h.ordered h'.ordered (by omega) (by omega) [] [] rfl).1

theorem hexDigit_ne_coverSep : ∀ n < 16, hexDigit n ≠ coverSep := by decide

theorem Encoded.coverSep_not_mem {e : Expr} {s : String} (h : Encoded e s) :
    coverSep ∉ s.toList := by
  obtain ⟨b, -, rfl⟩ := encodeExprHex_eq_ok h.encodes
  intro hmem
  rw [toHex, String.toList_ofList, List.mem_flatMap] at hmem
  obtain ⟨c, -, hc⟩ := hmem
  have hlt : c.toNat < 256 := c.toNat_lt
  simp only [List.mem_cons, List.not_mem_nil, or_false] at hc
  rcases hc with hc | hc
  · exact hexDigit_ne_coverSep _ (by omega) hc.symm
  · exact hexDigit_ne_coverSep _ (by omega) hc.symm

/-! ## Definitions -/

/-- What the create calls make indexes of, when the fields are called by these names. -/
inductive Created (names : List String) : IndexShape → Prop where
  | single {f : String} (hf : f ∈ names) : Created names (.single f)
  | composite {fields : List String} (hlen : 2 ≤ fields.length) (hfields : fields ⊆ names) :
      Created names (.composite fields)
  | covering {f : String} {asked : List String} (hf : f ∈ names) (hne : asked ≠ [])
      (hasked : asked ⊆ names) : Created names (.covering f (Database.carried f asked))
  | partialIndex {f encoded : String} {condition : Expr} (hf : f ∈ names)
      (h : Encoded condition encoded) : Created names (.partialIndex f condition encoded)

theorem mem_carried {f c : String} {asked : List String} :
    c ∈ Database.carried f asked ↔ c ∈ asked ∨ c = f := by
  rw [Database.carried, List.mem_insertionSort, List.mem_dedup, List.mem_append,
    List.mem_singleton]

variable {names : List String}

theorem carried_subset {f : String} {asked : List String} (hf : f ∈ names)
    (hasked : asked ⊆ names) :
    Database.carried f asked ⊆ names := by
  intro c hc
  rcases mem_carried.mp hc with hc | rfl
  · exact hasked hc
  · exact hf

theorem carried_ne_nil (f : String) (asked : List String) : Database.carried f asked ≠ [] :=
  List.ne_nil_of_mem (mem_carried.mpr (.inr rfl))

/-- The name tells which kind of index it is of. -/
theorem classifyIndex_created (hnames : ∀ f ∈ names, Plain f) {shape : IndexShape}
    (h : Created names shape) : classifyIndex shape.field = shape.nameShape := by
  cases h with
  | single hf => exact classifyIndex_plain (hnames _ hf)
  | @composite fields hlen hfields =>
    have hplain : ∀ f ∈ fields, Plain f := fun f hf => hnames f (hfields hf)
    obtain ⟨hcover, hpartial⟩ := compositeName_free hplain
    have hsep : compositeSep ∈ (compositeName fields).toList := sep_mem_join hlen
    rw [IndexShape.field, classifyIndex, if_neg hcover, if_neg hpartial, if_pos hsep,
      compositeFields_compositeName fun f hf => (hplain f hf).1]
    · rfl
    · rintro rfl
      exact absurd hlen (by decide)
  | @covering f asked hf hne hasked =>
    have hplain : ∀ c ∈ Database.carried f asked, Plain c :=
      fun c hc => hnames c (carried_subset hf hasked hc)
    have hparts := coveringParts_coveringName (hnames f hf).2.1 fun c hc => (hplain c hc).1
    have hcover : coverSep ∈ (coveringName f (Database.carried f asked)).toList := by
      rw [coveringName, if_neg fun he => carried_ne_nil f asked (List.isEmpty_iff.mp he)]
      exact sep_mem_joined coverSep f _
    rw [IndexShape.field, classifyIndex, if_pos hcover, hparts]
    rfl
  | @partialIndex f encoded condition hf h =>
    have hplain := hnames f hf
    have hcover : coverSep ∉ (partialName f encoded).toList := by
      rw [partialName, String.toList_append, String.toList_append, List.mem_append, List.mem_append,
        String.toList_singleton, List.mem_singleton]
      rintro (hmem | hmem | hmem)
      · exact hplain.2.1 hmem
      · exact absurd hmem (by decide)
      · exact h.coverSep_not_mem hmem
    have hsep : partialSep ∈ (partialName f encoded).toList := sep_mem_joined partialSep f encoded
    rw [IndexShape.field, classifyIndex, if_neg hcover, if_pos hsep,
      partialParts_partialName hplain.2.2]
    rfl

/-- Indexes of one name are of one definition. -/
theorem created_injective (hnames : ∀ f ∈ names, Plain f) {shape shape' : IndexShape}
    (h : Created names shape) (h' : Created names shape') (hname : shape.field = shape'.field) :
    shape = shape' := by
  have hclass := congrArg classifyIndex hname
  rw [classifyIndex_created hnames h, classifyIndex_created hnames h'] at hclass
  cases h with
  | single hf =>
    cases h' <;> cases hclass
    rfl
  | composite hlen hfields =>
    cases h' <;> cases hclass
    rfl
  | @covering f asked hf hne hasked =>
    cases h' <;> cases hclass
    rename_i asked' hne' hasked' hf'
    have hplain : ∀ c ∈ Database.carried f asked, compositeSep ∉ c.toList :=
      fun c hc => (hnames c (carried_subset hf hasked hc)).1
    have hplain' : ∀ c ∈ Database.carried f asked', compositeSep ∉ c.toList :=
      fun c hc => (hnames c (carried_subset hf hasked' hc)).1
    have hparts := congrArg coveringParts hname
    rw [IndexShape.field, IndexShape.field,
      coveringParts_coveringName (hnames f hf).2.1 hplain,
      coveringParts_coveringName (hnames f hf).2.1 hplain', Prod.mk.injEq] at hparts
    rw [hparts.2]
  | @partialIndex f encoded condition hf h =>
    cases h' <;> cases hclass
    rename_i encoded' condition' h' hf'
    have hparts := congrArg partialParts hname
    rw [IndexShape.field, IndexShape.field, partialParts_partialName (hnames f hf).2.2,
      partialParts_partialName (hnames f hf).2.2, Prod.mk.injEq, Option.some.injEq] at hparts
    obtain rfl := hparts.2
    rw [h.unique h']

theorem field_ne_empty (hnames : ∀ f ∈ names, f ≠ "") {shape : IndexShape}
    (h : Created names shape) : shape.field ≠ "" := by
  have hsep : ∀ {sep : Char} {name : String}, sep ∈ name.toList → name ≠ "" := by
    rintro sep name hmem rfl
    cases hmem
  cases h with
  | single hf => exact hnames _ hf
  | composite hlen hfields => exact hsep (sep_mem_join hlen)
  | @covering f asked hf hne hasked =>
    rw [IndexShape.field, coveringName,
      if_neg fun he => carried_ne_nil f asked (List.isEmpty_iff.mp he)]
    exact hsep (sep_mem_joined coverSep f _)
  | partialIndex hf h => exact hsep (sep_mem_joined partialSep _ _)

theorem Created.exists_name {shape : IndexShape} (h : Created names shape) : ∃ f, f ∈ names := by
  cases h with
  | @composite fields hlen hfields =>
    obtain ⟨f, hf⟩ := List.exists_mem_of_length_pos (Nat.zero_lt_of_lt hlen)
    exact ⟨f, hfields hf⟩
  | @single f hf | @covering f _ hf _ _ | @partialIndex f _ _ hf _ => exact ⟨f, hf⟩

/-! ## Scopes -/

/-- `scope_of`, for the name of any index. -/
def scopeOf (collection name : String) : String := collection ++ "." ++ name

theorem scopeOf_toList (collection name : String) :
    (scopeOf collection name).toList = collection.toList ++ '.' :: name.toList := by
  simp [scopeOf]

/-- A scope is split at its first dot, and neither part may be empty. -/
theorem splitScope_scopeOf_iff {collection name : String} :
    splitScope (scopeOf collection name) = some (collection, name) ↔
      collection ≠ "" ∧ '.' ∉ collection.toList ∧ name ≠ "" := by
  rw [splitScope, List.span_eq_takeWhile_dropWhile, scopeOf_toList]
  constructor
  · intro h
    split at h
    · cases h
    · rename_i c x f hspan
      rw [Prod.mk.injEq] at hspan
      split_ifs at h with hempty
      rw [Option.some.injEq, Prod.mk.injEq] at h
      obtain ⟨rfl, rfl⟩ := h
      rw [Bool.or_eq_true, not_or, List.isEmpty_iff, List.isEmpty_iff] at hempty
      refine ⟨fun hc => hempty.1 ?_, fun hmem => ?_, fun hf => hempty.2 ?_⟩
      · exact String.toList_ofList.symm.trans (congrArg String.toList hc)
      · rw [String.toList_ofList, ← hspan.1] at hmem
        exact absurd (List.all_eq_true.mp List.all_takeWhile '.' hmem) (by decide)
      · exact String.toList_ofList.symm.trans (congrArg String.toList hf)
  · rintro ⟨hc, hdot, hname⟩
    have hpos : ∀ a ∈ collection.toList, decide (a ≠ '.') = true := by
      intro a ha
      rw [decide_eq_true_eq]
      rintro rfl
      exact hdot ha
    rw [List.takeWhile_append_of_pos hpos, List.dropWhile_append_of_pos hpos,
      List.takeWhile_cons_of_neg (by decide), List.dropWhile_cons_of_neg (by decide),
      List.append_nil]
    dsimp only
    rw [String.ofList_toList, String.ofList_toList, if_neg]
    rw [Bool.or_eq_true, not_or, List.isEmpty_iff, List.isEmpty_iff]
    exact ⟨fun h => hc (String.toList_eq_nil_iff.mp h),
      fun h => hname (String.toList_eq_nil_iff.mp h)⟩

example : splitScope (scopeOf "a.b" "c") = some ("a", "b.c") := by decide

/-! ## Names decode -/

/-- Names and scopes are taken apart into what they were made of, over these field names. -/
structure NamesDecode (collection : String) (names : List String) : Prop where
  composite : ∀ fields ⊆ names, fields ≠ [] → compositeFields (compositeName fields) = fields
  covering : ∀ f ∈ names, ∀ covers ⊆ names,
    coveringParts (coveringName f covers) = (f, covers)
  partialIndex : ∀ f ∈ names, ∀ condition encoded, encodeExprHex condition = .ok encoded →
    partialParts (partialName f encoded) = (f, some encoded)
  distinct : ∀ shape shape', Created names shape → Created names shape' →
    shape.field = shape'.field → shape = shape'
  classified : ∀ shape, Created names shape → classifyIndex shape.field = shape.nameShape
  scopes : ∀ shape, Created names shape →
    splitScope (scopeOf collection shape.field) = some (collection, shape.field)

/-- Names and scopes decode exactly when no field name is empty or holds a separator, and the
collection has a name without a dot. -/
theorem names_decode_iff (collection : String) (names : List String) :
    NamesDecode collection names ↔
      ∀ f ∈ names, f ≠ "" ∧ Plain f ∧ collection ≠ "" ∧ '.' ∉ collection.toList := by
  constructor
  · intro h f hf
    have hclass := h.classified (.single f) (.single hf)
    have hscope := h.scopes (.single f) (.single hf)
    obtain ⟨hcollection, hdot, hname⟩ := splitScope_scopeOf_iff.mp hscope
    exact ⟨hname, plain_of_classifyIndex hclass, hcollection, hdot⟩
  · intro h
    have hplain : ∀ f ∈ names, Plain f := fun f hf => (h f hf).2.1
    refine ⟨fun fields hfields hne => ?_, fun f hf covers hcovers => ?_, fun f hf _ s _ => ?_,
      fun _ _ hc hc' => created_injective hplain hc hc',
      fun _ hc => classifyIndex_created hplain hc, fun shape hc => ?_⟩
    · exact compositeFields_compositeName (fun f hf => (hplain f (hfields hf)).1) hne
    · exact coveringParts_coveringName (hplain f hf).2.1 fun c hc => (hplain c (hcovers hc)).1
    · exact partialParts_partialName (hplain f hf).2.2 s
    · obtain ⟨f, hf⟩ := hc.exists_name
      exact splitScope_scopeOf_iff.mpr ⟨(h f hf).2.2.1, (h f hf).2.2.2,
        field_ne_empty (fun f hf => (h f hf).1) hc⟩

/-- A field name that holds a separator is taken for two. -/
theorem separator_in_name : ¬NamesDecode "users" ["a\x00b", "c"] := by
  intro h
  have hfields := h.composite ["a\x00b", "c"] (List.Subset.refl _) (by decide)
  exact absurd hfields (by decide)

end Adabt.Engine
