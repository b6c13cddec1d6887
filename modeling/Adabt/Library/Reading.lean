import Adabt.Library.Fallible
import Adabt.Library.Program

/-! # Readers with a position

A reader moves a position through a buffer that stays as it is. `Contained` says
how far it moves, that it never leaves the buffer and that its answer rests on what
it has passed; `Parses` that it reads a given run of symbols wherever it stands and
`Takes` that it does so where what follows allows it. `Mirrors` compares it with a
reader that takes from the front of what is left. -/

set_option autoImplicit false

namespace Adabt.Library

variable {ε η τ σ α β : Type}

abbrev Reading (ε τ : Type) := ReaderT (List τ) (EStateM ε ℕ)

namespace Reading

/-- Run over a whole buffer. -/
def runOn (x : Reading ε τ α) (buf : List τ) : Except ε α := result (x buf) 0

/-- Where a run over a whole buffer stops, the end of the buffer if it fails. -/
def stopOf (x : Reading ε τ α) (buf : List τ) : ℕ :=
  match x buf 0 with
  | .ok _ stop => stop
  | .error _ _ => buf.length

/-- A step that looks at no buffer. -/
def checked (r : Except ε α) : Reading ε τ α := fun _ => attempt r

/-- Where the reader stands. -/
def position : Reading ε τ ℕ := fun _ pos => .ok pos pos

def times (x : Reading ε τ α) : ℕ → Reading ε τ (List α)
  | 0 => pure []
  | n + 1 => do
    let a ← x
    let as ← times x n
    return a :: as

section Steps

variable {x : Reading ε τ α} {f : α → Reading ε τ β} {buf : List τ} {pos stop : ℕ} {a : α} {e : ε}

theorem bind_ok (h : x buf pos = .ok a stop) : (x >>= f) buf pos = f a buf stop := by
  change EStateM.bind (x buf) (fun a => f a buf) pos = _
  rw [EStateM.bind, h]

theorem bind_error (h : x buf pos = .error e stop) : (x >>= f) buf pos = .error e stop := by
  change EStateM.bind (x buf) (fun a => f a buf) pos = _
  rw [EStateM.bind, h]

theorem runOn_ok (h : x buf 0 = .ok a stop) : x.runOn buf = .ok a := by
  change result (x buf) 0 = _
  rw [result, h]

theorem runOn_error (h : x buf 0 = .error e stop) : x.runOn buf = .error e := by
  change result (x buf) 0 = _
  rw [result, h]

theorem stopOf_ok (h : x buf 0 = .ok a stop) : x.stopOf buf = stop := by
  rw [stopOf, h]

theorem runOn_eq_ok (h : x.runOn buf = .ok a) : ∃ stop, x buf 0 = .ok a stop := by
  cases hx : x buf 0 with
  | ok b stop =>
    rw [runOn_ok hx] at h
    cases h
    exact ⟨stop, rfl⟩
  | error e stop =>
    rw [runOn_error hx] at h
    cases h

end Steps

/-! ## Staying within the buffer -/

/-- The answer is the same over any buffer that agrees up to where the reader stopped. -/
def Settled (x : Reading ε τ α) (buf : List τ) (pos : ℕ) (a : α) (stop : ℕ) : Prop :=
  ∀ other : List τ, stop ≤ other.length → other.take stop = buf.take stop →
    x other pos = .ok a stop

/-- The reader moves on by `k` symbols at least and stays in the buffer, or ends in an
error that is `fine`. -/
def Contained (fine : ε → Prop) (k : ℕ) (x : Reading ε τ α) : Prop :=
  ∀ buf pos, pos ≤ buf.length →
    Post (x buf) pos
      (fun a stop => pos + k ≤ stop ∧ stop ≤ buf.length ∧ x.Settled buf pos a stop)
      fun e _ => fine e

variable {fine : ε → Prop} {j k : ℕ} {x : Reading ε τ α} {f : α → Reading ε τ β}

theorem take_mono {buf other : List τ} {a b : ℕ} (hab : a ≤ b)
    (h : other.take b = buf.take b) : other.take a = buf.take a := by
  have := congrArg (List.take a) h
  rwa [List.take_take, List.take_take, Nat.min_eq_left hab] at this

theorem contained_pure (a : α) : Contained fine 0 (pure a : Reading ε τ α) :=
  fun _ _ h => ⟨Nat.le_refl _, h, fun _ _ _ => rfl⟩

theorem contained_throw {e : ε} (h : fine e) (k : ℕ) :
    Contained fine k (throw e : Reading ε τ α) := fun _ _ _ => h

theorem Contained.le (h : Contained fine k x) (hjk : j ≤ k) : Contained fine j x :=
  fun buf pos hpos => (h buf pos hpos).mono (fun _ _ hs => ⟨by omega, hs.2⟩) fun _ _ he => he

theorem Contained.bind (hx : Contained fine j x) (hf : ∀ a, Contained fine k (f a)) :
    Contained fine (j + k) (x >>= f) := by
  intro buf pos hpos
  change Post (x buf >>= fun a => f a buf) pos _ _
  rw [post_bind]
  refine (hx buf pos hpos).mono (fun a mid hmid => ?_) fun _ _ he => he
  obtain ⟨hmove, hin, hsettled⟩ := hmid
  refine (hf a buf mid hin).mono (fun b stop hstop => ?_) fun _ _ he => he
  obtain ⟨hmove', hin', hsettled'⟩ := hstop
  refine ⟨by omega, hin', fun other hlen htake => ?_⟩
  rw [bind_ok (hsettled other (by omega) (take_mono (by omega) htake))]
  exact hsettled' other hlen htake

/-- Where it does not matter how far the steps move. -/
theorem Contained.seq (hx : Contained fine j x) (hf : ∀ a, Contained fine k (f a)) :
    Contained fine 0 (x >>= f) := (hx.bind hf).le (Nat.zero_le _)

/-- Where the first step moves far enough. -/
theorem Contained.bind_first (hx : Contained fine j x) (hf : ∀ a, Contained fine 0 (f a)) :
    Contained fine j (x >>= f) := hx.bind hf

theorem contained_position : Contained fine 0 (position : Reading ε τ ℕ) :=
  fun _ _ h => ⟨Nat.le_refl _, h, fun _ _ _ => rfl⟩

theorem Contained.ite {p : Prop} [Decidable p] {y : Reading ε τ α} (hx : Contained fine k x)
    (hy : Contained fine k y) : Contained fine k (if p then x else y) := by
  split
  · exact hx
  · exact hy

theorem Contained.times (hx : Contained fine 1 x) (n : ℕ) : Contained fine n (x.times n) := by
  induction n with
  | zero => exact contained_pure []
  | succ n ih =>
    have h := hx.bind fun a => ih.bind fun as => contained_pure (a :: as)
    rwa [Nat.add_zero, Nat.add_comm] at h

/-- A check that as many symbols are left as are read after it. -/
def ensureLeft (n : ℕ) (e : ℕ → ε) : Reading ε τ Unit := fun buf pos =>
  if n ≤ buf.length - pos then .ok () pos else .error (e (buf.length - pos)) pos

theorem Contained.ensureLeft {n : ℕ} {e : ℕ → ε} (he : ∀ left, fine (e left))
    (hx : Contained fine k x) (hk : n ≤ k) :
    Contained fine k (Reading.ensureLeft n e >>= fun _ => x) := by
  intro buf pos hpos
  change Post (Reading.ensureLeft n e buf >>= fun _ => x buf) pos _ _
  rw [post_bind]
  by_cases hn : n ≤ buf.length - pos
  · have hok : Reading.ensureLeft (τ := τ) n e buf pos = .ok () pos := if_pos hn
    unfold Post
    rw [hok]
    refine (hx buf pos hpos).mono (fun a stop hstop => ?_) fun _ _ he => he
    obtain ⟨hmove, hin, hsettled⟩ := hstop
    refine ⟨hmove, hin, fun other hlen htake => ?_⟩
    have hroom : Reading.ensureLeft n e other pos = .ok () pos := if_pos (by omega)
    rw [bind_ok hroom]
    exact hsettled other hlen htake
  · have herr : Reading.ensureLeft n e buf pos = .error (e (buf.length - pos)) pos := if_neg hn
    unfold Post
    rw [herr]
    exact he _

/-- A run over a whole buffer ends in a value or in a fine error. -/
theorem Contained.runOn (h : Contained fine k x) (buf : List τ) :
    (∃ a, x.runOn buf = .ok a) ∨ ∃ e, x.runOn buf = .error e ∧ fine e := by
  cases hx : x buf 0 with
  | ok a stop => exact .inl ⟨a, runOn_ok hx⟩
  | error e stop => exact .inr ⟨e, runOn_error hx, (h buf 0 (Nat.zero_le _)).of_error hx⟩

/-! ## One reader behind another -/

/-- Where the one goes, the other goes as far, to a related answer. -/
def Tracks (R : α → β → Prop) (x : Reading ε τ α) (y : Reading ε τ β) : Prop :=
  ∀ buf pos a stop, x buf pos = .ok a stop → ∃ b, y buf pos = .ok b stop ∧ R a b

section Tracks

variable {γ δ : Type} {R : α → β → Prop} {S : γ → δ → Prop} {y : Reading ε τ β}
  {f : α → Reading ε τ γ} {g : β → Reading ε τ δ}

theorem bind_eq_ok' {buf : List τ} {pos stop : ℕ} {c : γ} (h : (x >>= f) buf pos = .ok c stop) :
    ∃ a mid, x buf pos = .ok a mid ∧ f a buf mid = .ok c stop := by
  cases hx : x buf pos with
  | ok a mid =>
    rw [bind_ok hx] at h
    exact ⟨a, mid, rfl, h⟩
  | error e mid =>
    rw [bind_error hx] at h
    cases h

theorem tracks_pure {a : α} {b : β} (h : R a b) :
    Tracks R (pure a : Reading ε τ α) (pure b) := fun _ _ _ _ ha => by
  cases ha
  exact ⟨b, rfl, h⟩

theorem tracks_self (x : Reading ε τ α) : Tracks Eq x x := fun _ _ a _ h => ⟨a, h, rfl⟩

theorem Tracks.bind (hx : Tracks R x y) (hf : ∀ a b, R a b → Tracks S (f a) (g b)) :
    Tracks S (x >>= f) (y >>= g) := by
  intro buf pos c stop h
  obtain ⟨a, mid, ha, hc⟩ := bind_eq_ok' h
  obtain ⟨b, hb, hR⟩ := hx buf pos a mid ha
  obtain ⟨d, hd, hS⟩ := hf a b hR buf mid c stop hc
  exact ⟨d, by rw [bind_ok hb]; exact hd, hS⟩

/-- Where both begin with the same step. -/
theorem Tracks.same {z : Reading ε τ η} {f : η → Reading ε τ γ} {g : η → Reading ε τ δ}
    (hf : ∀ a, Tracks S (f a) (g a)) : Tracks S (z >>= f) (z >>= g) :=
  (tracks_self z).bind fun a b hab => by
    subst hab
    exact hf a

end Tracks

/-! ## Reading what was written -/

/-- The symbols are read as `a`, wherever they stand and whatever follows. -/
def Parses (x : Reading ε τ α) (symbols : List τ) (a : α) : Prop :=
  ∀ before after, x (before ++ symbols ++ after) before.length =
    .ok a (before.length + symbols.length)

theorem parses_pure (a : α) : Parses (pure a : Reading ε τ α) [] a := fun _ _ => rfl

theorem Parses.bind {xs ys : List τ} {a : α} {b : β} (hx : Parses x xs a)
    (hf : Parses (f a) ys b) : Parses (x >>= f) (xs ++ ys) b := by
  intro before after
  have hfirst := hx before (ys ++ after)
  have hsecond := hf (before ++ xs) after
  have hbuf : before ++ (xs ++ ys) ++ after = before ++ xs ++ (ys ++ after) := by
    simp only [List.append_assoc]
  have hbuf' : before ++ (xs ++ ys) ++ after = before ++ xs ++ ys ++ after := by
    simp only [List.append_assoc]
  rw [← hbuf] at hfirst
  rw [← hbuf', List.length_append, Nat.add_assoc] at hsecond
  rw [bind_ok hfirst, List.length_append]
  exact hsecond

/-- A last step that reads nothing. -/
theorem Parses.then {xs : List τ} {a : α} {b : β} (hx : Parses x xs a)
    (hf : Parses (f a) [] b) : Parses (x >>= f) xs b := by
  have h := hx.bind hf
  rwa [List.append_nil] at h

theorem Parses.runOn {xs : List τ} {a : α} (h : Parses x xs a) : x.runOn xs = .ok a := by
  have hrun := h [] []
  rw [List.append_nil, List.nil_append] at hrun
  exact runOn_ok hrun

/-- No proper beginning of what is read as a whole is read as anything. -/
theorem Parses.noPrefix {xs part rest : List τ} {a : α} (h : Parses x xs a)
    (hx : Contained fine k x) (hsplit : xs = part ++ rest) (hrest : rest ≠ []) (b : α) :
    x.runOn part ≠ .ok b := by
  intro hb
  obtain ⟨stop, hstop⟩ := runOn_eq_ok hb
  obtain ⟨-, hin, hsettled⟩ := (hx part 0 (Nat.zero_le _)).of_ok hstop
  have hlen := List.length_pos_of_ne_nil hrest
  have hagain := hsettled xs (by rw [hsplit, List.length_append]; omega) (by
    rw [hsplit, List.take_append_of_le_length hin])
  have hwhole := h [] []
  rw [List.append_nil, List.nil_append, List.length_nil, Nat.zero_add, hagain] at hwhole
  injection hwhole with _ hstop
  rw [hsplit, List.length_append] at hstop
  omega

/-! ## Refusing what was written -/

/-- No value is read from the symbols, wherever they stand and whatever follows. -/
def Refuses (x : Reading ε τ α) (symbols : List τ) : Prop :=
  ∀ before after, ∃ e stop, x (before ++ symbols ++ after) before.length = .error e stop

theorem Refuses.bind {xs : List τ} (hx : Refuses x xs) (ys : List τ) :
    Refuses (x >>= f) (xs ++ ys) := by
  intro before after
  obtain ⟨e, stop, he⟩ := hx before (ys ++ after)
  refine ⟨e, stop, ?_⟩
  rw [List.append_assoc, List.append_assoc, ← List.append_assoc before]
  exact bind_error he

theorem Refuses.then {xs : List τ} (hx : Refuses x xs) : Refuses (x >>= f) xs := by
  have h := hx.bind (f := f) []
  rwa [List.append_nil] at h

theorem Parses.refuses {xs ys : List τ} {a : α} (hx : Parses x xs a) (hf : Refuses (f a) ys) :
    Refuses (x >>= f) (xs ++ ys) := by
  intro before after
  have hfirst := hx before (ys ++ after)
  obtain ⟨e, stop, he⟩ := hf (before ++ xs) after
  refine ⟨e, stop, ?_⟩
  have hbuf : before ++ (xs ++ ys) ++ after = before ++ xs ++ (ys ++ after) := by
    simp only [List.append_assoc]
  rw [hbuf, bind_ok hfirst, ← he, List.length_append]
  simp only [List.append_assoc]

/-- Nothing is read from a beginning of what is refused as a whole. -/
theorem Refuses.noPrefix {xs part rest : List τ} (h : Refuses x xs) (hx : Contained fine k x)
    (hsplit : xs = part ++ rest) (a : α) : x.runOn part ≠ .ok a := by
  intro ha
  obtain ⟨stop, hstop⟩ := runOn_eq_ok ha
  obtain ⟨-, hin, hsettled⟩ := (hx part 0 (Nat.zero_le _)).of_ok hstop
  have hagain := hsettled xs (by rw [hsplit, List.length_append]; omega) (by
    rw [hsplit, List.take_append_of_le_length hin])
  obtain ⟨e, stop', he⟩ := h [] []
  rw [List.append_nil, List.nil_append, List.length_nil, hagain] at he
  cases he

/-! ## Reading by what is left -/

section Takes

variable {κ : Type} {view : τ → κ} {after after' : List κ → Prop} {x : Reading ε τ α}
  {f : α → Reading ε τ β} {a : α} {b : β} {ks ls : List κ}

/-- What is left to read, as the `view` shows it. -/
def leftOf (view : τ → κ) (buf : List τ) (pos : ℕ) : List κ := (buf.drop pos).map view

/-- Where these symbols are left, and `after` holds of what follows them, they are read as `a`. -/
def Takes (view : τ → κ) (after : List κ → Prop) (x : Reading ε τ α) (ks : List κ) (a : α) :
    Prop :=
  ∀ buf pos rest, leftOf view buf pos = ks ++ rest → after rest →
    x buf pos = .ok a (pos + ks.length)

theorem leftOf_add {buf : List τ} {pos : ℕ} {rest : List κ}
    (h : leftOf view buf pos = ks ++ rest) : leftOf view buf (pos + ks.length) = rest := by
  have hdrop := congrArg (List.drop ks.length) h
  rwa [leftOf, ← List.map_drop, List.drop_drop, List.drop_left] at hdrop

theorem getElem?_left {buf : List τ} {pos : ℕ} (k : ℕ) :
    (buf[pos + k]?).map view = (leftOf view buf pos)[k]? := by
  rw [leftOf, List.getElem?_map, List.getElem?_drop]

theorem takes_pure (a : α) : Takes view after (pure a : Reading ε τ α) [] a := fun _ _ _ _ _ => rfl

theorem Takes.mono (h : Takes view after x ks a) (hafter : ∀ rest, after' rest → after rest) :
    Takes view after' x ks a := fun buf pos rest hleft hrest =>
  h buf pos rest hleft (hafter rest hrest)

theorem Takes.bind (hx : Takes view after x ks a) (hf : Takes view after' (f a) ls b)
    (hafter : ∀ rest, after' rest → after (ls ++ rest)) :
    Takes view after' (x >>= f) (ks ++ ls) b := by
  intro buf pos rest hleft hrest
  rw [List.append_assoc] at hleft
  have hfirst := hx buf pos (ls ++ rest) hleft (hafter rest hrest)
  have hsecond := hf buf (pos + ks.length) rest (leftOf_add hleft) hrest
  rw [bind_ok hfirst, hsecond, List.length_append, Nat.add_assoc]

/-- A first step that takes one symbol. -/
theorem Takes.first {k : κ} (hx : Takes view after x [k] a) (hf : Takes view after' (f a) ls b)
    (hafter : ∀ rest, after' rest → after (ls ++ rest)) :
    Takes view after' (x >>= f) (k :: ls) b := hx.bind hf hafter

/-- A first step that takes nothing. -/
theorem Takes.skip (hx : Takes view after x [] a) (hf : Takes view after' (f a) ls b)
    (hafter : ∀ rest, after' rest → after (ls ++ rest)) :
    Takes view after' (x >>= f) ls b := hx.bind hf hafter

/-- A last step that takes nothing. -/
theorem Takes.last (hx : Takes view after x ks a) (hf : Takes view after' (f a) [] b)
    (hafter : ∀ rest, after' rest → after rest) : Takes view after' (x >>= f) ks b := by
  have h := hx.bind hf hafter
  rwa [List.append_nil] at h

theorem Takes.runOn {buf : List τ} (h : Takes view after x (buf.map view) a) (hafter : after []) :
    x.runOn buf = .ok a := by
  have hleft : leftOf view buf 0 = buf.map view ++ [] := by
    rw [leftOf, List.drop_zero, List.append_nil]
  exact runOn_ok (h buf 0 [] hleft hafter)

end Takes

/-! ## Readers that take from the front -/

/-- The reader answers as `old` does, whose state is the `view` of where the reader stands. -/
structure Mirrors (view : List τ → ℕ → σ) (lift : η → ε) (old : σ → Except η (α × σ))
    (x : Reading ε τ α) : Prop where
  ok : ∀ buf pos, pos ≤ buf.length → ∀ a s, old (view buf pos) = .ok (a, s) →
    ∃ stop, x buf pos = .ok a stop ∧ stop ≤ buf.length ∧ s = view buf stop
  error : ∀ buf pos, pos ≤ buf.length → ∀ e, old (view buf pos) = .error e →
    ∃ stop, x buf pos = .error (lift e) stop

variable {view : List τ → ℕ → σ} {lift : η → ε} {old : σ → Except η (α × σ)}
  {next : α × σ → Except η (β × σ)}

theorem mirrors_pure (a : α) :
    Mirrors view lift (fun s => .ok (a, s)) (pure a : Reading ε τ α) where
  ok := fun _ pos hpos _ _ h => by
    cases h
    exact ⟨pos, rfl, hpos, rfl⟩
  error := fun _ _ _ _ h => by cases h

theorem mirrors_throw (e : η) :
    Mirrors view lift (fun _ => .error e) (throw (lift e) : Reading ε τ α) where
  ok := fun _ _ _ _ _ h => by cases h
  error := fun _ pos _ _ h => by
    cases h
    exact ⟨pos, rfl⟩

/-- The steps after may rely on what is known of what was read. -/
theorem Mirrors.bind_of {known : α → Prop} (hknown : ∀ s a s', old s = .ok (a, s') → known a)
    (hx : Mirrors view lift old x)
    (hf : ∀ a, known a → Mirrors view lift (fun s => next (a, s)) (f a)) :
    Mirrors view lift (fun s => old s >>= next) (x >>= f) where
  ok := fun buf pos hpos b s h => by
    obtain ⟨⟨a, mid⟩, hold, hnext⟩ := bind_eq_ok.mp h
    obtain ⟨stop, hstop, hin, rfl⟩ := hx.ok buf pos hpos a mid hold
    rw [bind_ok hstop]
    exact (hf a (hknown _ _ _ hold)).ok buf stop hin b s hnext
  error := fun buf pos hpos e h => by
    cases hold : old (view buf pos) with
    | error e' =>
      obtain ⟨stop, hstop⟩ := hx.error buf pos hpos e' hold
      replace h : (old (view buf pos) >>= next) = .error e := h
      rw [hold] at h
      cases h
      exact ⟨stop, bind_error hstop⟩
    | ok r =>
      obtain ⟨stop, hstop, hin, hview⟩ := hx.ok buf pos hpos r.1 r.2 hold
      replace h : (old (view buf pos) >>= next) = .error e := h
      rw [hold, ok_bind] at h
      rw [bind_ok hstop]
      refine (hf r.1 (hknown _ _ _ hold)).error buf stop hin e ?_
      rw [← hview]
      exact h

theorem Mirrors.bind (hx : Mirrors view lift old x)
    (hf : ∀ a, Mirrors view lift (fun s => next (a, s)) (f a)) :
    Mirrors view lift (fun s => old s >>= next) (x >>= f) :=
  hx.bind_of (fun _ _ _ _ => trivial) fun a _ => hf a

theorem Mirrors.ite {p : Prop} [Decidable p] {old' : σ → Except η (α × σ)} {y : Reading ε τ α}
    (hx : Mirrors view lift old x) (hy : Mirrors view lift old' y) :
    Mirrors view lift (fun s => if p then old s else old' s) (if p then x else y) := by
  split
  · exact hx
  · exact hy

theorem Mirrors.ensureLeft {room : σ → ℕ} {n : ℕ} {e : ℕ → ε} {e' : σ → η}
    (hroom : ∀ buf pos, room (view buf pos) = buf.length - pos)
    (he : ∀ buf pos, lift (e' (view buf pos)) = e (buf.length - pos))
    (hx : Mirrors view lift old x) :
    Mirrors view lift (fun s => ensure (n ≤ room s) (e' s) >>= fun _ => old s)
      (Reading.ensureLeft n e >>= fun _ => x) where
  ok := fun buf pos hpos a s h => by
    obtain ⟨u, hu, h⟩ := bind_eq_ok.mp h
    have hn : n ≤ buf.length - pos := hroom buf pos ▸ ensure_eq_ok.mp hu
    have hok : Reading.ensureLeft (τ := τ) n e buf pos = .ok () pos := if_pos hn
    rw [bind_ok hok]
    exact hx.ok buf pos hpos a s h
  error := fun buf pos hpos err h => by
    by_cases hn : n ≤ buf.length - pos
    · have hok : Reading.ensureLeft (τ := τ) n e buf pos = .ok () pos := if_pos hn
      have hpass : ensure (n ≤ room (view buf pos)) (e' (view buf pos)) = .ok () :=
        ensure_eq_ok.mpr (by rwa [hroom])
      rw [hpass, ok_bind] at h
      rw [bind_ok hok]
      exact hx.error buf pos hpos err h
    · have herr : Reading.ensureLeft (τ := τ) n e buf pos =
          .error (e (buf.length - pos)) pos := if_neg hn
      have hfail : ensure (n ≤ room (view buf pos)) (e' (view buf pos)) =
          .error (e' (view buf pos)) := if_neg (by rwa [hroom])
      rw [hfail, error_bind] at h
      cases h
      exact ⟨pos, by rw [bind_error herr, he]⟩

/-- As `Mirrors`, of a reader that does not say where it stopped. -/
def Answers (view : List τ → ℕ → σ) (lift : η → ε) (old : σ → Except η α)
    (x : Reading ε τ α) : Prop :=
  ∀ buf pos, pos ≤ buf.length → Lifts lift (old (view buf pos)) (result (x buf) pos)

variable {answer : α × σ → Except η β}

theorem answers_pure (a : α) : Answers view lift (fun _ => .ok a) (pure a : Reading ε τ α) :=
  fun _ _ _ => rfl

theorem Answers.bind_of {known : α → Prop} (hknown : ∀ s a s', old s = .ok (a, s') → known a)
    (hx : Mirrors view lift old x)
    (hf : ∀ a, known a → Answers view lift (fun s => answer (a, s)) (f a)) :
    Answers view lift (fun s => old s >>= answer) (x >>= f) := by
  intro buf pos hpos
  change Lifts lift (old (view buf pos) >>= answer) (result ((x >>= f) buf) pos)
  cases hold : old (view buf pos) with
  | ok r =>
    obtain ⟨stop, hstop, hin, hview⟩ := hx.ok buf pos hpos r.1 r.2 hold
    have h := hf r.1 (hknown _ _ _ hold) buf stop hin
    rw [← hview] at h
    rw [result, bind_ok hstop, ok_bind]
    exact h
  | error e =>
    obtain ⟨stop, hstop⟩ := hx.error buf pos hpos e hold
    rw [result, bind_error hstop]
    rfl

theorem Answers.bind (hx : Mirrors view lift old x)
    (hf : ∀ a, Answers view lift (fun s => answer (a, s)) (f a)) :
    Answers view lift (fun s => old s >>= answer) (x >>= f) :=
  .bind_of (fun _ _ _ _ => trivial) hx fun a _ => hf a

theorem Mirrors.answers (hx : Mirrors view lift old x) :
    Answers view lift (fun s => old s >>= fun r => .ok r.1) x := by
  have h : Answers view lift (fun s => old s >>= fun r => .ok r.1) (x >>= pure) :=
    .bind hx fun a => answers_pure a
  rwa [bind_pure] at h

theorem Answers.ite {p : Prop} [Decidable p] {old old' : σ → Except η α} {y : Reading ε τ α}
    (hx : Answers view lift old x) (hy : Answers view lift old' y) :
    Answers view lift (fun s => if p then old s else old' s) (if p then x else y) := by
  split
  · exact hx
  · exact hy

theorem Answers.ensureLeft {room : σ → ℕ} {n : ℕ} {e : ℕ → ε} {e' : σ → η}
    (hroom : ∀ buf pos, room (view buf pos) = buf.length - pos)
    (he : ∀ buf pos, lift (e' (view buf pos)) = e (buf.length - pos))
    {old : σ → Except η α} (hx : Answers view lift old x) :
    Answers view lift (fun s => ensure (n ≤ room s) (e' s) >>= fun _ => old s)
      (Reading.ensureLeft n e >>= fun _ => x) := by
  intro buf pos hpos
  beta_reduce
  by_cases hn : n ≤ buf.length - pos
  · have hok : Reading.ensureLeft (τ := τ) n e buf pos = .ok () pos := if_pos hn
    have hpass : ensure (n ≤ room (view buf pos)) (e' (view buf pos)) = .ok () :=
      ensure_eq_ok.mpr (by rwa [hroom])
    rw [hpass, ok_bind, result, bind_ok hok]
    exact hx buf pos hpos
  · have herr : Reading.ensureLeft (τ := τ) n e buf pos =
        .error (e (buf.length - pos)) pos := if_neg hn
    have hfail : ensure (n ≤ room (view buf pos)) (e' (view buf pos)) =
        .error (e' (view buf pos)) := if_neg (by rwa [hroom])
    rw [hfail, error_bind, result, bind_error herr, ← he]
    rfl

theorem Answers.runOn {old : σ → Except η α} (h : Answers view lift old x) (buf : List τ) :
    Lifts lift (old (view buf 0)) (x.runOn buf) := h buf 0 (Nat.zero_le _)

/-- Over a whole buffer the two answer alike. -/
theorem Mirrors.runOn (h : Mirrors view lift old x) (buf : List τ) :
    x.runOn buf = ((old (view buf 0)).map Prod.fst).mapError lift := by
  cases hold : old (view buf 0) with
  | ok r =>
    obtain ⟨stop, hstop, -⟩ := h.ok buf 0 (Nat.zero_le _) r.1 r.2 hold
    rw [runOn_ok hstop]
    rfl
  | error e =>
    obtain ⟨stop, hstop⟩ := h.error buf 0 (Nat.zero_le _) e hold
    rw [runOn_error hstop]
    rfl

end Reading

end Adabt.Library
