import Adabt.Storage.CodecRoundTrip

/-! # Schema edits that touch no row

An in-place edit appends or drops one field at the tail. The edited schema lays
stored rows out alike as long as the presence bitmap keeps its length, and then
it reads every field the two schemas share as the old one does. -/

set_option autoImplicit false

namespace Adabt.Storage
open Adabt.Core Adabt.Library

/-- What an in-place edit can be: a nullable field appended in `Fixed` mode
with the bitmap length unchanged, or the last field dropped. -/
theorem editable_cases {old new : Schema} (h : schemaEditableInPlace old new) :
    new.mode = old.mode ∧
      ((old.mode = .fixed ∧ ∃ f, new.fields = old.fields ++ [f] ∧ f.nullable ∧
          bitmapLen new.fields.length = bitmapLen old.fields.length) ∨
        (∃ f, old.fields = new.fields ++ [f] ∧
          (old.mode = .fixed ∨ old.mode = .strict ∧ f.ty.fixedWidth = none))) := by
  have split_last : ∀ {xs ys : List FieldDef}, ys.length = xs.length + 1 →
      ys.take xs.length = xs → ∃ f, ys = xs ++ [f] := by
    intro xs ys hlen htake
    have hone : (ys.drop xs.length).length = 1 := by rw [List.length_drop]; omega
    obtain ⟨f, hf⟩ := List.length_eq_one_iff.mp hone
    exact ⟨f, by rw [← hf, ← htake, List.length_take_of_le (by omega), List.take_append_drop]⟩
  rw [schemaEditableInPlace] at h
  by_cases hm : old.mode = new.mode
  · refine ⟨hm.symm, ?_⟩
    simp only [hm, ne_eq, not_true_eq_false, if_false] at h ⊢
    cases hmode : new.mode with
    | dynamic => simp [hmode] at h
    | declared => simp [hmode] at h
    | fixed =>
      simp only [hmode] at h
      split at h
      · rename_i hg
        obtain ⟨f, hf⟩ := split_last hg.1 hg.2
        refine .inl ⟨rfl, f, hf, ?_⟩
        simpa [hf] using h
      · obtain ⟨f, hf⟩ := split_last (of_decide_eq_true h).1 (of_decide_eq_true h).2
        exact .inr ⟨f, hf, .inl rfl⟩
    | strict =>
      simp only [hmode] at h
      obtain ⟨hlen, htake, hlast⟩ := of_decide_eq_true h
      obtain ⟨f, hf⟩ := split_last hlen htake
      refine .inr ⟨f, hf, .inr ⟨rfl, ?_⟩⟩
      simpa [hf] using hlast
  · simp [hm] at h

theorem extras_of_closed {s : Schema} (h : s.mode = .fixed ∨ s.mode = .strict) (rec : Record) :
    extras s rec = [] := by
  rcases h with h | h <;> simp [extras, h, SchemaMode.allowsExtraFields]

/-- The fields an edit leaves in place. -/
def sharedFields (old new : Schema) : List FieldDef :=
  if old.fields.length ≤ new.fields.length then old.fields else new.fields

/-- With the bitmap length unchanged, the edited schema reads old rows. -/
theorem readable_edited {old new : Schema} (rec : Record) (h : schemaEditableInPlace old new)
    (hb : bitmapLen new.fields.length = bitmapLen old.fields.length) :
    Readable old new rec (sharedFields old new) := by
  obtain ⟨hm, ⟨hmode, f, hf, -, -⟩ | ⟨f, hf, hmode⟩⟩ := editable_cases h
  · have hs : sharedFields old new = old.fields := by
      rw [sharedFields, hf, if_pos (by simp)]
    refine ⟨hm, by simp [hmode], ⟨[], ?_, fun hne => absurd hmode hne⟩,
      ⟨[f], ?_, fun hne => absurd hmode hne⟩, hb, fun j hj _ => ?_⟩
    · rw [hs, List.append_nil]
    · rw [hs, hf]
    · rw [hs] at hj
      rw [List.getElem?_eq_none hj]
      rfl
  · have hs : sharedFields old new = new.fields := by
      rw [sharedFields, hf, if_neg (by simp)]
    have hclosed : old.mode = .fixed ∨ old.mode = .strict := hmode.imp_right And.left
    refine ⟨hm, by rcases hclosed with h | h <;> simp [h], ⟨[f], ?_, fun hne => ⟨?_, ?_⟩⟩,
      ⟨[], ?_, fun _ => rfl⟩, hb, fun j hj hlt => ?_⟩
    · rw [hs, hf]
    · intro g hg
      obtain rfl : g = f := by simpa using hg
      exact (hmode.resolve_left hne).2
    · exact fun he => absurd (extras_of_closed hclosed rec) he
    · rw [hs, List.append_nil]
    · rw [hs] at hj
      omega

/-- The edited schema decodes the row the old one wrote, each of its fields is
what the old codec reads, and a field the old schema lacks is absent. -/
def ReadsAlike (old new : Schema) (rec : Record) : Prop :=
  ∃ bytes r r', (RecordCodec.new old).encode rec = .ok bytes ∧
    (RecordCodec.new old).decode bytes = .ok r ∧ (RecordCodec.new new).decode bytes = .ok r' ∧
    ∀ f ∈ new.fields, r'.get f.name =
      if (old.field f.name).isSome then r.get f.name else none

theorem decode_of_header {c : RecordCodec} {bytes : Bytes} {h : RecordHeader} {r : Record}
    (hd : c.decodeWithHeader bytes = .ok (h, r)) : c.decode bytes = .ok r := by
  rw [RecordCodec.decode, hd]
  rfl

theorem fixedWidths_shared_le (old new : Schema) (h : schemaEditableInPlace old new) :
    fixedWidths (sharedFields old new) ≤ fixedWidths old.fields := by
  obtain ⟨-, ⟨-, f, hf, -⟩ | ⟨f, hf, -⟩⟩ := editable_cases h
  · rw [sharedFields, hf, if_pos (by simp)]
  · rw [sharedFields, hf, if_neg (by simp), fixedWidths_append]
    omega

theorem closed_of_editable {old new : Schema} (h : schemaEditableInPlace old new) :
    old.mode = .fixed ∨ old.mode = .strict := by
  obtain ⟨-, ⟨hm, -⟩ | ⟨f, -, hm⟩⟩ := editable_cases h
  · exact .inl hm
  · exact hm.imp_right And.left

/-- Decoding an old row under the edited schema restores the shared fields. -/
theorem decode_edited {old new : Schema} {rec : Record} (h : schemaEditableInPlace old new)
    (hb : bitmapLen new.fields.length = bitmapLen old.fields.length)
    (hok : old.validateRecord rec = .ok ()) (hnest : rec.NestedAtMost maxDepth)
    (hfits : Fits old rec) : ∃ bytes, (RecordCodec.new old).encode rec = .ok bytes ∧
      (RecordCodec.new new).decode bytes = .ok (restore rec (sharedFields old new)) := by
  have hclosed := closed_of_editable h
  have hd : old.mode ≠ .dynamic := by rcases hclosed with h | h <;> simp [h]
  have hread := readable_edited rec h hb
  have hready := rowReady hd hok hnest hfits
  obtain ⟨region, hregion, hlen, henc⟩ := encodeWithHeader_row old rec .new hd hready.writable
  have hrow := rowFits (h := .new) hlen hd hnest hfits
  obtain ⟨rest, hw, -⟩ := hread.writer
  have hwidths := fixedWidths_shared_le old new h
  have hdec := decodeWithHeader_row hread (RowReady.left (hw ▸ hready)) hregion hlen
    ⟨by have := hrow.widths; omega, hrow.size, hrow.depth⟩ rfl
    (fun _ hflag => absurd rfl (show (0 : UInt8) &&& hasOverflow ≠ 0 from hflag))
  refine ⟨_, henc, decode_of_header (h := flagged old rec .new) ?_⟩
  rw [hdec, extras_of_closed hclosed]
  rfl

theorem editable_readsAlike {old new : Schema} {rec : Record} (h : schemaEditableInPlace old new)
    (hb : bitmapLen new.fields.length = bitmapLen old.fields.length)
    (hok : old.validateRecord rec = .ok ()) (hnull : ¬ rec.HasNull)
    (hnest : rec.NestedAtMost maxDepth) (hfits : Fits old rec) : ReadsAlike old new rec := by
  have hclosed := closed_of_editable h
  have hd : old.mode ≠ .dynamic := by rcases hclosed with h | h <;> simp [h]
  obtain ⟨bytes, henc, hnew⟩ := decode_edited h hb hok hnest hfits
  obtain ⟨bytes', henc', hold, -⟩ := decode_encode (h := .new) hok hnull hnest hfits
  obtain rfl : bytes = bytes' := Except.ok.inj (henc.symm.trans henc')
  have hself := decode_of_header (hold ⟨rfl, fun _ hflag => absurd rfl hflag⟩)
  refine ⟨bytes, _, _, henc, hself, hnew, fun f hf => ?_⟩
  rw [asStored, if_neg hd, OrdMap.get_mapVal]
  have hshared : ∀ fields : List FieldDef, (fields.map (·.name)).Nodup → f ∈ fields →
      (restore rec fields).get f.name = (rec.get f.name).map (stored f.ty) := by
    intro fields hn hmem
    rw [get_restore hn, Schema.find_of_mem hn hmem]
    simp [present_of_noNull hnull]
  obtain ⟨-, ⟨-, g, hg, -⟩ | ⟨g, hg, -⟩⟩ := editable_cases h
  · rw [sharedFields, hg, if_pos (by simp)]
    rw [hg] at hf
    rcases List.mem_append.mp hf with hf | hf
    · simp only [old.field_of_mem hf, Option.isSome_some, if_true]
      exact hshared old.fields old.names_nodup hf
    · obtain rfl : f = g := by simpa using hf
      have hnone : old.field f.name = none := find_name_eq_none fun e he heq => by
        have hnodup := new.names_nodup
        rw [hg, List.map_append, List.nodup_append] at hnodup
        exact hnodup.2.2 _ (List.mem_map_of_mem he) _ (List.mem_map_of_mem hf) heq
      have hfind : old.fields.find? (·.name = f.name) = none := hnone
      rw [get_restore old.names_nodup, hfind, hnone]
      rfl
  · rw [sharedFields, if_neg (by rw [hg]; simp)]
    simp only [old.field_of_mem (by rw [hg]; exact List.mem_append_left _ hf), Option.isSome_some,
      if_true]
    exact hshared new.fields new.names_nodup hf

end Adabt.Storage
