import Adabt.Library.Lockstep
import Adabt.Storage.PageRuns
import Mathlib.Data.List.Forall2

/-! # The bytes refine the slot array

The heap works with a page as its slot array. Every operation on the bytes gives
the result, the error text and the slot array that the operation there gives. -/

set_option autoImplicit false

namespace Adabt.Storage.PageImage
open Adabt.Core Adabt.Library

variable {p : PageImage}

/-- The slot array of a valid page. -/
def view (p : PageImage) (h : p.Valid) : Page where
  slots := p.contents
  freeEnd := p.freeEnd
  slots_le := by
    rw [length_contents, Nat.mul_comm]
    exact h.framed.slots_le
  payloads_le := h.packed

/-- The bytes after a call and its result agree with what the slot array gives. -/
def Agrees {α β : Type} (ok : α → β → Page → Prop) :
    PageImage × Except Error α → Except Error (Page × β) → Prop
  | (q, .ok a), .ok (page, b) => ok a b page ∧ ∃ h : q.Valid, q.view h = page
  | (_, .error e), .error e' => e = e'
  | _, _ => False

theorem freeSpace_view (h : p.Valid) : (p.view h).freeSpace = p.freeSpace := by
  rw [Page.freeSpace, freeSpace_eq, view, length_contents, Nat.mul_comm slotSize]

theorem payloadAt_view (h : p.Valid) (i : ℕ) : (p.view h).payloadAt i = p.payloadAt i := by
  rw [Page.payloadAt, view, List.getD_eq_getElem?_getD, getElem?_contents]
  by_cases hi : i < p.slotCount
  · rw [if_pos hi, Option.getD_some]
  · rw [if_neg hi, payload_of_not_live fun hl => hi hl.1]
    rfl

theorem isNone_payloadAt {i : ℕ} (hi : i < p.slotCount) :
    (p.payloadAt i).isNone = !p.isLive i := by
  by_cases hl : p.Live i
  · rw [payload_of_live hl, isLive_iff.mpr hl.2]
    rfl
  · have hd : p.isLive i = false := by
      rw [Bool.eq_false_iff, ne_eq, isLive_iff]
      exact fun h => hl ⟨hi, h⟩
    rw [payload_of_not_live hl, hd]
    rfl

theorem findIdx?_contents (p : PageImage) :
    p.contents.findIdx? Option.isNone = (List.range p.slotCount).find? fun i => !p.isLive i := by
  cases hf : (List.range p.slotCount).find? fun i => !p.isLive i with
  | none =>
    rw [List.findIdx?_eq_none_iff]
    intro o ho
    obtain ⟨i, hi, rfl⟩ := List.mem_map.mp ho
    rw [isNone_payloadAt (List.mem_range.mp hi)]
    exact eq_false_of_ne_true (List.find?_eq_none.mp hf i hi)
  | some i =>
    obtain ⟨hdead, hi, hbefore⟩ := List.find?_range_eq_some.mp hf
    have hlt := List.mem_range.mp hi
    rw [List.findIdx?_eq_some_iff_getElem]
    refine ⟨by rwa [length_contents], ?_, ?_⟩
    · simpa only [contents, List.getElem_map, List.getElem_range, isNone_payloadAt hlt] using hdead
    · intro j hj
      have hb := hbefore j hj
      simp only [contents, List.getElem_map, List.getElem_range,
        isNone_payloadAt (hj.trans hlt)]
      simpa using hb

theorem view_eq {q : PageImage} {page : Page} (h : q.Valid) (hs : q.contents = page.slots)
    (he : q.freeEnd = page.freeEnd) : q.view h = page := by
  cases page
  unfold view
  congr

theorem insert_refines (h : p.Valid) (payload : Bytes) :
    Agrees (fun i j _ => i = j) (p.insert payload) ((p.view h).insert payload) := by
  unfold insert Page.insert
  by_cases hempty : payload = []
  · rw [if_pos hempty, if_pos hempty]
    rfl
  rw [if_neg hempty, if_neg hempty]
  by_cases hlong : maxPayload < payload.length
  · rw [if_pos hlong, if_pos hlong]
    rfl
  rw [if_neg hlong, if_neg hlong]
  dsimp only
  have hslots := h.framed.slots_le
  have hfind : (p.view h).slots.findIdx? Option.isNone = _ := findIdx?_contents p
  rw [hfind]
  cases hreuse : (List.range p.slotCount).find? fun i => !p.isLive i with
  | some i =>
    have hi : i < p.slotCount := List.mem_range.mp (List.mem_of_find?_eq_some hreuse)
    simp only [Option.isNone_some, Bool.false_eq_true, if_false, Nat.add_zero]
    by_cases hfit : payload.length ≤ p.freeSpace
    · rw [if_neg (Nat.not_lt.mpr hfit), dif_pos (by rwa [freeSpace_view])]
      have hplaced := placed_reused h.framed hi hfit
      rw [freeSpace_eq] at hfit
      have hfits : p.Fits i payload :=
        ⟨by rw [show max p.slotCount (i + 1) = p.slotCount by omega]; omega, hi.le⟩
      refine ⟨rfl, hplaced.valid h hfits, view_eq _ ?_ hplaced.freeEnd⟩
      rw [hplaced.contents h hfits, if_pos hi]
      rfl
    · rw [if_pos (Nat.not_le.mp hfit), dif_neg (by rwa [freeSpace_view])]
      rw [Agrees, Page.short, freeSpace_view]
  | none =>
    simp only [Option.isNone_none, if_true]
    by_cases hfit : payload.length + slotSize ≤ p.freeSpace
    · rw [if_neg (Nat.not_lt.mpr hfit), dif_pos (by rwa [freeSpace_view]),
        (copyDown_copied h.framed payload (by omega)).slotCount]
      have hplaced := placed_new h.framed hfit
      rw [freeSpace_eq] at hfit
      have hfits : p.Fits p.slotCount payload := by
        constructor
        · rw [show max p.slotCount (p.slotCount + 1) = p.slotCount + 1 by omega, Nat.add_mul]
          omega
        · exact le_rfl
      refine ⟨(length_contents p).symm, hplaced.valid h hfits, view_eq _ ?_ hplaced.freeEnd⟩
      rw [hplaced.contents h hfits, if_neg (lt_irrefl _)]
      rfl
    · rw [if_pos (Nat.not_le.mp hfit), dif_neg (by rwa [freeSpace_view])]
      rw [Agrees, Page.short, freeSpace_view]

theorem get_refines (h : p.Valid) (i : ℕ) : p.get i = (p.view h).get i := by
  cases hg : (p.view h).get i with
  | ok b => rw [get_eq_ok h, ← payloadAt_view h, ← Page.get_eq_ok, hg]
  | error e =>
    have hslot := getElem?_contents p i
    unfold Page.get at hg
    unfold get
    have hview : (p.view h).slots[i]? = p.contents[i]? := rfl
    rw [hview, hslot] at hg
    by_cases hi : i < p.slotCount
    · rw [if_pos hi] at hg
      rw [if_neg (Nat.not_le.mpr hi)]
      cases hp : p.payloadAt i with
      | some b =>
        rw [hp] at hg
        cases hg
      | none =>
        rw [hp] at hg
        have hoff : (p.slotAt i).1 = 0 := by
          by_contra hoff
          exact payload_ne_none ⟨hi, hoff⟩ hp
        dsimp only
        rw [if_pos hoff]
        exact hg
    · rw [if_neg hi] at hg
      rw [if_pos (Nat.not_lt.mp hi)]
      rw [show (p.view h).slots.length = p.slotCount from length_contents p] at hg
      exact hg

theorem delete_refines (h : p.Valid) (i : ℕ) :
    Agrees (fun _ _ _ => True) (p.delete i) (((p.view h).delete i).map (·, ())) := by
  unfold delete Page.delete
  rw [payloadAt_view]
  by_cases hl : p.Live i
  · have hguard : ¬ (p.slotCount ≤ i ∨ (!p.isLive i) = true) := by
      rw [isLive_iff.mpr hl.2]
      simpa using hl.1
    have hk := killed_delete h.framed hl.1
    rw [if_neg hguard, if_pos (payload_isSome.mpr hl)]
    exact ⟨trivial, hk.valid h, view_eq _ (contents_set hk.slotCount (hk.payloadAt h)) hk.freeEnd⟩
  · have hguard : p.slotCount ≤ i ∨ (!p.isLive i) = true := by
      by_contra hg
      exact hl (live_of_guard hg)
    rw [if_pos hguard, if_neg (payload_isSome.not.mpr hl)]
    rfl

/-! ## Compaction -/

/-- A slot array that ends in a live slot, if at all. -/
def Trimmed (xs : List (Option Bytes)) : Prop := ∀ n, xs.length = n + 1 → xs.getD n none ≠ none

theorem trimmed_dropTrailingDead (xs : List (Option Bytes)) : Trimmed (dropTrailingDead xs) := by
  induction xs with
  | nil => exact fun n hn => absurd hn (by simp [dropTrailingDead])
  | cons x xs ih =>
    intro n hn
    rw [dropTrailingDead] at hn ⊢
    cases hrest : dropTrailingDead xs with
    | nil =>
      rw [hrest] at hn
      cases x with
      | none => exact absurd hn (by simp [keepSlot])
      | some b =>
        have h0 : n = 0 := by simpa [keepSlot, eq_comm] using hn
        subst h0
        simp [keepSlot]
    | cons y ys =>
      have hk : keepSlot x (y :: ys) = x :: y :: ys := by cases x <;> rfl
      rw [hrest] at hn ih
      rw [hk] at hn ⊢
      have hlast := ih ys.length (by simp)
      have hn' : n = ys.length + 1 := by simpa using hn.symm
      rw [hn']
      exact hlast

theorem trimmed_unique {xs ys : List (Option Bytes)} (hx : Trimmed xs) (hy : Trimmed ys)
    (h : ∀ i, xs.getD i none = ys.getD i none) : xs = ys := by
  have hle : ∀ {as bs : List (Option Bytes)}, Trimmed as →
      (∀ i, as.getD i none = bs.getD i none) → as.length ≤ bs.length := by
    intro as bs ha hab
    by_contra hlt
    obtain ⟨n, hn⟩ : ∃ n, as.length = n + 1 := ⟨as.length - 1, by omega⟩
    apply ha n hn
    rw [hab n, List.getD_eq_getElem?_getD, List.getElem?_eq_none (by omega)]
    rfl
  have hlen : xs.length = ys.length := le_antisymm (hle hx h) (hle hy fun i => (h i).symm)
  apply List.ext_getElem hlen
  intro i h₁ h₂
  have hi := h i
  rwa [List.getD_eq_getElem?_getD, List.getD_eq_getElem?_getD, List.getElem?_eq_getElem h₁,
    List.getElem?_eq_getElem h₂] at hi

theorem foldl_max_mem (xs : List ℕ) (m : ℕ) : xs.foldl max m = m ∨ xs.foldl max m ∈ xs := by
  induction xs generalizing m with
  | nil => exact .inl rfl
  | cons x xs ih =>
    rw [List.foldl_cons]
    rcases ih (max m x) with h | h
    · rcases max_choice m x with hm | hm
      · exact .inl (h.trans hm)
      · exact .inr (List.mem_cons.mpr (.inl (h.trans hm)))
    · exact .inr (List.mem_cons_of_mem x h)

theorem highestLive_live (h : p.Valid) {n : ℕ} (hn : p.highestLive = n + 1) :
    p.payloadAt n ≠ none := by
  rcases foldl_max_mem (p.livePayloads.map (·.1 + 1)) 0 with h0 | hmem
  · exact absurd (hn.symm.trans h0) (Nat.succ_ne_zero n)
  · obtain ⟨e, he, heq⟩ := List.mem_map.mp hmem
    have hen : e.1 = n := Nat.succ_injective (heq.trans hn)
    rw [livePayloads_eq h, entriesOf, List.mem_filterMap] at he
    obtain ⟨i, -, hi⟩ := he
    obtain ⟨b, hb, rfl⟩ := Option.map_eq_some_iff.mp hi
    rw [← hen, hb]
    exact Option.some_ne_none b

theorem compact_refines (h : p.Valid) :
    ∃ hc : p.compact.Valid, p.compact.view hc = (p.view h).compact := by
  obtain ⟨hv, -, hcount, hend, hp⟩ := compact_spec h
  refine ⟨hv, view_eq hv ?_ hend⟩
  apply trimmed_unique _ (trimmed_dropTrailingDead _)
  · intro i
    have hl := payloadAt_view hv i
    have hr := payloadAt_view h i
    rw [Page.payloadAt] at hl hr
    rw [getD_dropTrailingDead, hr, ← hp i]
    exact hl
  · intro n hn
    rw [length_contents, hcount] at hn
    have hl := payloadAt_view hv n
    rw [Page.payloadAt] at hl
    change (p.compact.view hv).slots.getD n none ≠ none
    rw [hl, hp n]
    exact highestLive_live h hn

/-! ## Runs -/

/-- What the heap asks of a page. -/
inductive Request where
  | insert (payload : Bytes)
  | get (slot : ℕ)
  | delete (slot : ℕ)
  | compact
  | freeSpace

inductive Reply where
  | slot (i : ℕ)
  | payload (b : Bytes)
  | room (n : ℕ)
  | done
  | failed (e : Error)
  deriving DecidableEq

def Reply.ofExcept {α : Type} (f : α → Reply) : Except Error α → Reply
  | .ok a => f a
  | .error e => .failed e

def Request.onBytes : Request → PageImage → Reply × PageImage
  | insert payload, p => (.ofExcept .slot (p.insert payload).2, (p.insert payload).1)
  | get i, p => (.ofExcept .payload (p.get i), p)
  | delete i, p => (.ofExcept (fun _ => .done) (p.delete i).2, (p.delete i).1)
  | compact, p => (.done, p.compact)
  | freeSpace, p => (.room p.freeSpace, p)

/-- A page that refuses a request stays as it is. -/
def Reply.settled {β : Type} (f : β → Reply) (page : Page) :
    Except Error (Page × β) → Reply × Page
  | .ok (page', b) => (f b, page')
  | .error e => (.failed e, page)

def Request.onSlots : Request → Page → Reply × Page
  | insert payload, page => Reply.settled .slot page (page.insert payload)
  | get i, page => (.ofExcept .payload (page.get i), page)
  | delete i, page => Reply.settled (fun _ => .done) page ((page.delete i).map (·, ()))
  | compact, page => (.done, page.compact)
  | freeSpace, page => (.room page.freeSpace, page)

/-- The bytes are a valid page with this slot array. -/
def Shows (p : PageImage) (page : Page) : Prop := ∃ h : p.Valid, p.view h = page

theorem Agrees.reply {α β : Type} {ok : α → β → Page → Prop} {r : PageImage × Except Error α}
    {s : Except Error (Page × β)} {f : α → Reply} {g : β → Reply} (h : p.Valid)
    (ha : Agrees ok r s) (hok : ∀ a b page, ok a b page → f a = g b)
    (hsame : ∀ e, r.2 = .error e → r.1 = p) :
    Reply.ofExcept f r.2 = (Reply.settled g (p.view h) s).1 ∧
      Shows r.1 (Reply.settled g (p.view h) s).2 := by
  obtain ⟨q, result⟩ := r
  cases result with
  | ok a =>
    cases s with
    | ok r => exact ⟨hok a r.2 r.1 ha.1, ha.2⟩
    | error e => exact ha.elim
  | error e =>
    cases s with
    | ok r => exact ha.elim
    | error e' =>
      obtain rfl : e = e' := ha
      exact ⟨rfl, (hsame e rfl).symm ▸ ⟨h, rfl⟩⟩

theorem insert_error {payload : Bytes} {e : Error} (h : p.Valid)
    (he : (p.insert payload).2 = .error e) : (p.insert payload).1 = p := by
  have heffect : InsertEffect p payload (p.insert payload) := (call_spec h (.insert payload)).2
  rwa [← Prod.mk.eta (p := p.insert payload), he] at heffect

theorem delete_error {i : ℕ} {e : Error} (h : p.Valid) (he : (p.delete i).2 = .error e) :
    (p.delete i).1 = p := by
  have heffect : DeleteEffect p i (p.delete i) := (call_spec h (.delete i)).2
  rwa [← Prod.mk.eta (p := p.delete i), he] at heffect

/-- One request: the same reply, and bytes that show the same slot array again. -/
theorem request_refines {page : Page} (hp : Shows p page) (r : Request) :
    (r.onBytes p).1 = (r.onSlots page).1 ∧ Shows (r.onBytes p).2 (r.onSlots page).2 := by
  obtain ⟨h, rfl⟩ := hp
  cases r with
  | insert payload =>
    exact (insert_refines h payload).reply h (fun _ _ _ hi => congrArg Reply.slot hi)
      fun _ => insert_error h
  | get i => exact ⟨congrArg (Reply.ofExcept Reply.payload) (get_refines h i), h, rfl⟩
  | delete i => exact (delete_refines h i).reply h (fun _ _ _ _ => rfl) fun _ => delete_error h
  | compact => exact ⟨rfl, compact_refines h⟩
  | freeSpace => exact ⟨congrArg Reply.room (freeSpace_view h).symm, h, rfl⟩

theorem shows_new : Shows new .new :=
  ⟨blank_new.valid, view_eq _ (by decide +kernel) (by decide +kernel)⟩

/-- Whatever the heap asks of a new page, the bytes answer as the slot array does, down to the
texts of the errors, and hold the same payloads in the same slots. -/
theorem requests_refine (rs : List Request) :
    answers Request.onBytes new rs = answers Request.onSlots .new rs ∧
      Shows (Library.run (advance Request.onBytes) new rs)
        (Library.run (advance Request.onSlots) .new rs) := by
  have hall : Guarded (advance Request.onBytes) (fun _ _ => True) new rs :=
    guarded_of_forall (fun _ _ => trivial) new rs
  have h := answers_related (f := Request.onBytes) (g := Request.onSlots) (E := Eq)
    (fun r p page hp _ => request_refines hp r) shows_new rs hall
  rwa [List.forall₂_eq_eq_eq] at h

end Adabt.Storage.PageImage
