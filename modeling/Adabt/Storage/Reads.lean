import Adabt.Storage.ValueCodec

/-! # Readers and what follows

A reader takes bytes from the front and looks no further. What it answered it
answers again when more bytes follow. -/

set_option autoImplicit false

namespace Adabt.Storage
open Adabt.Core Adabt.Library

namespace Reader

variable {α β : Type}

/-- The reader took these bytes, and takes them whatever follows. -/
structure Takes (r : Reader α) (c : Cursor) (a : α) (c' : Cursor) (xs : Bytes) : Prop where
  split : c.rest = xs ++ c'.rest
  pos : c'.pos = c.pos + xs.length
  more : ∀ ys, r ⟨c.pos, c.rest ++ ys⟩ = .ok (a, ⟨c'.pos, c'.rest ++ ys⟩)

def Local (r : Reader α) : Prop := ∀ c a c', r c = .ok (a, c') → ∃ xs, Takes r c a c' xs

theorem local_pure (a : α) : Local fun c => .ok (a, c) := by
  intro c b c' h
  cases h
  exact ⟨[], rfl, rfl, fun ys => rfl⟩

theorem local_error (e : Cursor → Error) : Local (α := α) fun c => .error (e c) := by
  intro c a c' h
  cases h

theorem Local.bind {r : Reader α} {k : α × Cursor → Except Error (β × Cursor)} (hr : Local r)
    (hk : ∀ a, Local fun c => k (a, c)) : Local fun c => r c >>= k := by
  intro c b c' h
  obtain ⟨⟨a, c₁⟩, ha, h⟩ := bind_eq_ok.mp h
  obtain ⟨xs, hxs⟩ := hr c a c₁ ha
  obtain ⟨ys, hys⟩ := hk a c₁ b c' h
  refine ⟨xs ++ ys, ?_, ?_, fun zs => ?_⟩
  · rw [hxs.split, hys.split, List.append_assoc]
  · rw [hys.pos, hxs.pos, List.length_append, Nat.add_assoc]
  · rw [hxs.more, ok_bind]
    exact hys.more zs

theorem Local.ite {p : Prop} [Decidable p] {r r' : Reader α} (hr : Local r) (hr' : Local r') :
    Local fun c => if p then r c else r' c := by
  split
  · exact hr
  · exact hr'

/-- A check that more bytes cannot fail. -/
theorem Local.ensure {n : ℕ} {e : Cursor → Error} {r : Reader α} (hr : Local r) :
    Local fun c => ensure (n ≤ c.remaining) (e c) >>= fun _ => r c := by
  intro c a c' h
  obtain ⟨u, hu, h⟩ := bind_eq_ok.mp h
  obtain ⟨xs, hxs⟩ := hr c a c' h
  refine ⟨xs, hxs.split, hxs.pos, fun ys => ?_⟩
  have hroom : n ≤ c.rest.length := ensure_eq_ok.mp hu
  have hmore : Library.ensure (n ≤ (Cursor.mk c.pos (c.rest ++ ys)).remaining)
      (e ⟨c.pos, c.rest ++ ys⟩) = .ok () := by
    rw [ensure_eq_ok, Cursor.remaining, List.length_append]
    omega
  rw [hmore, ok_bind]
  exact hxs.more ys

/-! ## The readers of the cursor -/

theorem local_take (n : ℕ) : Local (Cursor.take n) := by
  intro c b c' h
  rw [Cursor.take] at h
  split_ifs at h with hn
  cases h
  refine ⟨c.rest.take n, (List.take_append_drop n c.rest).symm, ?_, fun ys => ?_⟩
  · rw [List.length_take, Nat.min_eq_left hn]
  · rw [Cursor.take, if_pos (by rw [List.length_append]; omega), List.take_append_of_le_length hn,
      List.drop_append_of_le_length hn]

theorem local_u8 : Local Cursor.u8 := (local_take 1).bind fun b => local_pure (b.headD 0)

theorem local_u64 : Local Cursor.u64 :=
  (local_take 8).bind fun b => local_pure (UInt64.ofNat (ofLeBytes b))

theorem readLoop_more {i shift result used : ℕ} {buf : Bytes} {v : UInt64}
    (h : Varint.readLoop i shift result buf = .ok (v, used)) :
    i ≤ used ∧ used - i ≤ buf.length ∧
      ∀ ys, Varint.readLoop i shift result (buf ++ ys) = .ok (v, used) := by
  induction buf generalizing i shift result with
  | nil => cases h
  | cons byte rest ih =>
    rw [Varint.readLoop] at h
    dsimp only at h
    split_ifs at h with hlong hover hlast
    · cases h
      refine ⟨Nat.le_succ i, by simp, fun ys => ?_⟩
      rw [List.cons_append, Varint.readLoop, if_neg hlong]
      dsimp only
      rw [if_neg hover, if_pos hlast]
    · obtain ⟨hi, hused, hmore⟩ := ih h
      refine ⟨by omega, by rw [List.length_cons]; omega, fun ys => ?_⟩
      rw [List.cons_append, Varint.readLoop, if_neg hlong]
      dsimp only
      rw [if_neg hover, if_neg hlast, hmore]

theorem local_varint : Local Cursor.varint := by
  intro c v c' h
  obtain ⟨⟨n, used⟩, hread, h⟩ := bind_eq_ok.mp h
  cases h
  obtain ⟨-, hused, hmore⟩ := readLoop_more hread
  rw [Nat.sub_zero] at hused
  refine ⟨c.rest.take used, (List.take_append_drop used c.rest).symm, ?_, fun ys => ?_⟩
  · rw [List.length_take, Nat.min_eq_left hused]
  · rw [Cursor.varint, Varint.readU64, hmore, ok_bind]
    dsimp only
    rw [List.drop_append_of_le_length hused]
    rfl

theorem local_string (n : ℕ) : Local (Cursor.string n) := by
  refine (local_take n).bind fun b => ?_
  dsimp only
  cases decodeUtf8 b with
  | some s => exact local_pure s
  | none => exact local_error _

/-! ## Values -/

theorem local_items {read : Reader OrdValue} (hr : Local read) (n : ℕ) :
    Local (readItems read n) := by
  induction n with
  | zero => exact local_pure []
  | succ n ih => exact hr.bind fun v => ih.bind fun vs => local_pure (v :: vs)

theorem local_entries {read : Reader OrdValue} (hr : Local read) (n : ℕ)
    (m : OrdMap String OrdValue) : Local (readEntries read n m) := by
  induction n generalizing m with
  | zero => exact local_pure m
  | succ n ih =>
    exact local_varint.bind fun klen => (local_string klen.toNat).bind fun k =>
      hr.bind fun v => ih (m.insert k v)

theorem local_tlv (left : ℕ) : Local (readTlvAt left) := by
  induction left with
  | zero => exact local_error _
  | succ left ih =>
    refine local_u8.bind fun t => ?_
    refine .ite (local_pure _) ?_
    refine .ite (local_u8.bind fun scale => (local_take 16).bind fun b => local_pure _) ?_
    refine .ite (local_u64.bind fun n => local_pure _) ?_
    refine .ite (local_pure _) (.ite (local_pure _) ?_)
    refine .ite (local_varint.bind fun n => local_pure _) ?_
    refine .ite (local_varint.bind fun n => local_pure _) ?_
    refine .ite (local_u64.bind fun n => local_pure _) ?_
    refine .ite (local_varint.bind fun n => (local_string n.toNat).bind fun s => local_pure _) ?_
    refine .ite (local_varint.bind fun n => (local_take n.toNat).bind fun b => local_pure _) ?_
    refine .ite (local_varint.bind fun n => .ensure ((local_items ih n.toNat).bind fun items =>
      local_pure _)) ?_
    exact .ite (local_varint.bind fun n => .ensure ((local_entries ih n.toNat ∅).bind fun m =>
      local_pure _)) (local_error _)

end Reader

/-- Decoding a value is not changed by what follows it. -/
theorem decodeValue_more {buf : Bytes} {v : OrdValue} {used : ℕ}
    (h : decodeValue buf = .ok (v, used)) :
    used ≤ buf.length ∧ ∀ ys, decodeValue (buf ++ ys) = .ok (v, used) := by
  obtain ⟨⟨w, c⟩, hread, h⟩ := bind_eq_ok.mp h
  cases h
  obtain ⟨xs, hxs⟩ := Reader.local_tlv _ _ _ _ hread
  have hpos := hxs.pos
  have hsplit : buf = xs ++ c.rest := hxs.split
  rw [Cursor.new, Nat.zero_add] at hpos
  constructor
  · rw [hpos, hsplit, List.length_append]
    omega
  · intro ys
    have hmore := hxs.more ys
    rw [decodeValue, readTlvValue, Cursor.new]
    rw [Cursor.new] at hmore
    rw [hmore]
    rfl

end Adabt.Storage
