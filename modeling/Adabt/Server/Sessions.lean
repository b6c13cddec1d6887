import Adabt.Server.Respond
import Adabt.Storage.Peek

/-! # Whole sessions

What the gates keep true of a connection over every sequence of frames. They
hold as long as no `Auth` frame follows the one that succeeded: such a frame
passes both gates and reaches a dispatch that has nothing to do with it. -/

set_option autoImplicit false

namespace Adabt.Server
open Adabt.Core Adabt.Library Adabt.Storage

variable {δ : Type}

/-! ## Tokens -/

theorem foldl_diff (ps : List (UInt8 × UInt8)) (diff : UInt8) :
    ps.foldl (fun diff p => diff ||| (p.1 ^^^ p.2)) diff = 0 ↔
      diff = 0 ∧ ∀ p ∈ ps, p.1 = p.2 := by
  induction ps generalizing diff with
  | nil => simp
  | cons p ps ih =>
    rw [List.foldl_cons, ih, UInt8.or_eq_zero_iff, UInt8.xor_eq_zero_iff, List.forall_mem_cons,
      and_assoc]

theorem tokensMatch_iff (want got : String) : tokensMatch want got ↔ want = got := by
  have hzip : ∀ xs ys : Bytes, xs.length = ys.length →
      ((∀ p ∈ xs.zip ys, p.1 = p.2) ↔ xs = ys) := by
    intro xs ys h
    induction xs generalizing ys with
    | nil =>
      cases ys with
      | nil => simp
      | cons y ys => cases h
    | cons x xs ih =>
      cases ys with
      | nil => cases h
      | cons y ys =>
        rw [List.zip_cons_cons, List.forall_mem_cons, ih ys (Nat.succ.inj h), List.cons.injEq]
  simp only [tokensMatch]
  split_ifs with hlen
  · constructor
    · intro h
      cases h
    · intro h
      exact absurd (by rw [h]) hlen
  · rw [beq_iff_eq, foldl_diff, hzip _ _ (not_not.mp hlen), utf8_inj]
    simp

theorem any_tokensMatch (configured : Option String) (token : String) :
    configured.any (tokensMatch · token) ↔ configured = some token := by
  cases configured with
  | none => simp
  | some want => rw [Option.any_some, tokensMatch_iff, Option.some.injEq]

theorem authenticate_admin {auth : AuthConfig} {token : String}
    (h : auth.authenticate token = some .admin) : auth.adminToken = some token := by
  rw [AuthConfig.authenticate] at h
  split_ifs at h with hadmin hreader
  · exact (any_tokensMatch _ _).mp hadmin
  · cases h

/-! ## One frame -/

/-- The frame asks to authenticate, and its body holds this token. -/
def Presents (frame : Frame) (token : String) : Prop :=
  RequestKind.fromCode frame.kind = some .auth ∧
    ∃ rest, Reader.str "auth token" frame.body = .ok (token, rest)

/-- No `Auth` frame follows the one that succeeded, and one whose body holds no token does
not pass for the empty token. -/
structure Polite (auth : AuthConfig) (frame : Frame) (c : Connection δ) : Prop where
  once : c.role ≠ none → RequestKind.fromCode frame.kind ≠ some .auth
  legible : c.role = none → RequestKind.fromCode frame.kind = some .auth →
    (∀ token, ¬ Presents frame token) → auth.authenticate "" = none

/-- The request a frame makes the server dispatch. -/
def Dispatches (auth : AuthConfig) (c : Connection δ) (frame : Frame) (kind : RequestKind) : Prop :=
  rule auth c.role frame = .forward kind

/-- The role changes only from none, and only by a matching token. -/
theorem rule_reply {auth : AuthConfig} {frame : Frame} {c : Connection δ}
    (hp : Polite auth frame c) {reply : Frame} {role : Option Role}
    (h : rule auth c.role frame = .reply reply role) :
    reply.requestId = frame.requestId ∧ (role = c.role ∨ c.role = none ∧
      ∃ token, Presents frame token ∧ role = auth.authenticate token) := by
  unfold rule at h
  cases hkind : RequestKind.fromCode frame.kind with
  | none =>
    simp only [hkind, Ruling.reply.injEq] at h
    rw [← h.1, ← h.2]
    exact ⟨rfl, .inl rfl⟩
  | some kind =>
    cases hrole : c.role with
    | some known =>
      simp only [hkind, hrole] at h
      split_ifs at h
      · cases h
        exact ⟨rfl, .inl rfl⟩
      · cases h
        exact ⟨rfl, .inl rfl⟩
    | none =>
      simp only [hkind, hrole] at h
      split_ifs at h with hauth
      · cases h
        exact ⟨rfl, .inl rfl⟩
      · rw [not_not.mp hauth] at hkind
        cases hearned : auth.authenticate (presentedToken frame.body) with
        | none =>
          rw [hearned] at h
          cases h
          exact ⟨rfl, .inl rfl⟩
        | some earned =>
          rw [hearned] at h
          cases h
          have hread : ∃ token, Presents frame token := by
            by_contra hnone
            push Not at hnone
            have hempty : presentedToken frame.body = "" := by
              unfold presentedToken
              cases hr : Reader.str "auth token" frame.body with
              | error e => rfl
              | ok p => exact absurd ⟨hkind, p.2, hr⟩ (hnone p.1)
            rw [hempty, hp.legible hrole hkind hnone] at hearned
            cases hearned
          obtain ⟨token, hpresents⟩ := hread
          obtain ⟨rest, hrest⟩ := hpresents.2
          have htoken : presentedToken frame.body = token := by
            rw [presentedToken, hrest]
          exact ⟨rfl, .inr ⟨rfl, token, hpresents, by rw [← htoken, hearned]⟩⟩

/-- What reaches dispatch has passed both gates. -/
theorem rule_forward {auth : AuthConfig} {frame : Frame} {role : Option Role} {kind : RequestKind}
    (h : rule auth role frame = .forward kind) :
    RequestKind.fromCode frame.kind = some kind ∧ ∃ known, role = some known ∧
      known.permits kind ∧ forbiddenByFloor auth known kind frame.body = false := by
  unfold rule at h
  cases hkind : RequestKind.fromCode frame.kind with
  | none =>
    rw [hkind] at h
    cases h
  | some kind' =>
    cases role with
    | none =>
      simp only [hkind] at h
      split_ifs at h
      cases hearned : auth.authenticate (presentedToken frame.body) with
      | none =>
        rw [hearned] at h
        cases h
      | some earned =>
        rw [hearned] at h
        cases h
    | some known =>
      simp only [hkind] at h
      split_ifs at h with hpermits hfloor
      cases h
      exact ⟨rfl, known, rfl, by simpa using hpermits, by simpa using hfloor⟩

/-! ## The collection a request names -/

/-- The body starts with this collection. -/
def Names (body : Bytes) (name : String) : Prop :=
  ∃ rest, Reader.str "collection" body = .ok (name, rest)

theorem names_parseKeyed {body buf : Bytes} {name : String} {id : RecordId}
    (h : Request.parseKeyed body = .ok (name, id, buf)) : Names body name := by
  obtain ⟨⟨c, buf1⟩, hc, h⟩ := bind_eq_ok.mp h
  obtain ⟨⟨id1, buf2⟩, -, h⟩ := bind_eq_ok.mp h
  cases h
  exact ⟨buf1, hc⟩

theorem names_parseRecord {body : Bytes} {name : String} {id : RecordId} {rec : Record}
    (h : Request.parseRecord body = .ok (name, id, rec)) : Names body name := by
  obtain ⟨⟨c, id1, buf1⟩, hc, h⟩ := bind_eq_ok.mp h
  obtain ⟨⟨rec1, buf2⟩, -, h⟩ := bind_eq_ok.mp h
  obtain ⟨-, -, h⟩ := bind_eq_ok.mp h
  cases h
  exact names_parseKeyed hc

theorem names_decode {body : Bytes} {spec : QuerySpec} (h : QuerySpec.decode body = .ok spec) :
    Names body spec.collection := by
  obtain ⟨⟨c, buf1⟩, hc, h⟩ := bind_eq_ok.mp h
  obtain ⟨⟨filter, buf2⟩, -, h⟩ := bind_eq_ok.mp h
  obtain ⟨⟨limit, buf3⟩, -, h⟩ := bind_eq_ok.mp h
  obtain ⟨-, -, h⟩ := bind_eq_ok.mp h
  cases h
  exact ⟨buf1, hc⟩

theorem bare_collection {body : Bytes} {request r : Request} (hr : r.collection = none)
    (h : Request.bare body r = .ok request) : request.collection = none := by
  obtain ⟨-, -, h⟩ := bind_eq_ok.mp h
  cases h
  exact hr

/-- The gate reads the collection that the request names. -/
theorem collectionOf_parse {kind : RequestKind} {body : Bytes} {request : Request}
    (h : Request.parse kind body = some (.ok request)) {name : String}
    (hname : request.collection = some name) : collectionOf kind body = some name := by
  have hread : Names body name → collectionOf .get body = some name := by
    intro ⟨rest, hrest⟩
    rw [collectionOf, hrest]
  have hbare : ∀ {r : Request}, r.collection = none → Request.bare body r ≠ .ok request := by
    intro r hr hb
    rw [bare_collection hr hb] at hname
    cases hname
  cases kind with
  | auth => cases h
  | ping => exact absurd (Option.some.inj h) (hbare rfl)
  | optimize => exact absurd (Option.some.inj h) (hbare rfl)
  | explainOptimizations => exact absurd (Option.some.inj h) (hbare rfl)
  | metrics => exact absurd (Option.some.inj h) (hbare rfl)
  | get =>
    obtain ⟨⟨c, id, buf⟩, hc, hrest⟩ := bind_eq_ok.mp (Option.some.inj h)
    obtain ⟨-, -, hrest⟩ := bind_eq_ok.mp hrest
    cases hrest
    cases hname
    exact hread (names_parseKeyed hc)
  | delete =>
    obtain ⟨⟨c, id, buf⟩, hc, hrest⟩ := bind_eq_ok.mp (Option.some.inj h)
    obtain ⟨-, -, hrest⟩ := bind_eq_ok.mp hrest
    cases hrest
    cases hname
    exact hread (names_parseKeyed hc)
  | insert =>
    obtain ⟨⟨c, id, rec⟩, hc, hrest⟩ := bind_eq_ok.mp (Option.some.inj h)
    cases hrest
    cases hname
    exact hread (names_parseRecord hc)
  | update =>
    obtain ⟨⟨c, id, rec⟩, hc, hrest⟩ := bind_eq_ok.mp (Option.some.inj h)
    cases hrest
    cases hname
    exact hread (names_parseRecord hc)
  | count =>
    obtain ⟨⟨c, buf⟩, hc, hrest⟩ := bind_eq_ok.mp (Option.some.inj h)
    obtain ⟨-, -, hrest⟩ := bind_eq_ok.mp hrest
    cases hrest
    cases hname
    exact hread ⟨buf, hc⟩
  | query =>
    obtain ⟨spec, hspec, hrest⟩ := bind_eq_ok.mp (Option.some.inj h)
    cases hrest
    cases hname
    exact hread (names_decode hspec)
  | explain =>
    obtain ⟨spec, hspec, hrest⟩ := bind_eq_ok.mp (Option.some.inj h)
    cases hrest
    cases hname
    exact hread (names_decode hspec)

/-! ## Sessions -/

def answer (E : Engine δ) (auth : AuthConfig) (frame : Frame) (c : Connection δ) : Connection δ :=
  exec (respond E auth frame) c

/-- Admin is the role of an open listener, or of a connection that presented the admin
token. -/
def Earned (auth : AuthConfig) (before : List Frame) (role : Option Role) : Prop :=
  role = some .admin → (auth.adminToken = none ∧ auth.readerToken = none) ∨
    ∃ frame ∈ before, ∃ token, auth.adminToken = some token ∧ Presents frame token

/-- What holds when a frame arrives on a connection that has answered these before. -/
structure Guards (E : Engine δ) (auth : AuthConfig) (before : List Frame) (frame : Frame)
    (c : Connection δ) : Prop where
  replies : ∃ reply c', respond E auth frame c = .ok reply c' ∧ reply.requestId = frame.requestId
  silent : c.role = none → ∀ kind, ¬ Dispatches auth c frame kind
  earns : c.role = none → ∀ role, (answer E auth frame c).role = some role →
    ∃ token, Presents frame token ∧ auth.authenticate token = some role
  admin : Earned auth before c.role
  reader : c.role = some .reader → ∀ kind, Dispatches auth c frame kind →
    (kind ≠ .insert ∧ kind ≠ .update ∧ kind ≠ .delete ∧ kind ≠ .optimize) ∧
      ∀ request, Request.parse kind frame.body = some (.ok request) →
        ∀ name, request.collection = some name → auth.floors.get name ≠ some .admin

/-- A request that is let through is answered, and keeps the role. -/
theorem respond_forward (E : Engine δ) {auth : AuthConfig} {frame : Frame} {c : Connection δ}
    {kind : RequestKind} (hrule : rule auth c.role frame = .forward kind) (hkind : kind ≠ .auth) :
    ∃ reply c', respond E auth frame c = .ok reply c' ∧ reply.requestId = frame.requestId ∧
      c'.role = c.role := by
  have hparse : ∃ parsed, Request.parse kind frame.body = some parsed := by
    cases kind with
    | auth => exact absurd rfl hkind
    | _ => exact ⟨_, rfl⟩
  obtain ⟨parsed, hparsed⟩ := hparse
  unfold respond
  rw [hrule]
  dsimp only
  unfold dispatch
  rw [hparsed]
  cases parsed with
  | error e => exact ⟨_, _, rfl, rfl, rfl⟩
  | ok request =>
    dsimp only
    cases serve E request c.db with
    | ok body db => exact ⟨_, _, rfl, rfl, rfl⟩
    | error e db => exact ⟨_, _, rfl, rfl, rfl⟩

/-- A polite frame is answered, and keeps the role or earns one. -/
theorem respond_polite (E : Engine δ) {auth : AuthConfig} {frame : Frame} {c : Connection δ}
    (hp : Polite auth frame c) : ∃ reply c', respond E auth frame c = .ok reply c' ∧
      reply.requestId = frame.requestId ∧ (c'.role = c.role ∨ c.role = none ∧
        ∃ token, Presents frame token ∧ c'.role = auth.authenticate token) := by
  cases hrule : rule auth c.role frame with
  | reply reply role =>
    obtain ⟨hid, hrole⟩ := rule_reply hp hrule
    refine ⟨reply, { c with role := role }, ?_, hid, hrole⟩
    unfold respond
    rw [hrule]
  | forward kind =>
    obtain ⟨hkind, known, hknown, -⟩ := rule_forward hrule
    have hauth : kind ≠ .auth := by
      intro h
      rw [h] at hkind
      exact hp.once (by rw [hknown]; simp) hkind
    obtain ⟨reply, c', h, hid, hrole⟩ := respond_forward E hrule hauth
    exact ⟨reply, c', h, hid, .inl hrole⟩

theorem answer_role (E : Engine δ) {auth : AuthConfig} {frame : Frame} {c : Connection δ}
    (hp : Polite auth frame c) : (answer E auth frame c).role = c.role ∨ c.role = none ∧
      ∃ token, Presents frame token ∧ (answer E auth frame c).role = auth.authenticate token := by
  obtain ⟨reply, c', hc', -, hrole⟩ := respond_polite E hp
  have hanswer : answer E auth frame c = c' := by rw [answer, exec, hc']
  rw [hanswer]
  exact hrole

theorem earned_run (E : Engine δ) {auth : AuthConfig} {frames before : List Frame}
    {c : Connection δ} (hc : Earned auth before c.role)
    (h : Guarded (answer E auth) (Polite auth) c frames) :
    Earned auth (before ++ frames) (run (answer E auth) c frames).role := by
  induction frames generalizing before c with
  | nil => rwa [List.append_nil]
  | cons frame frames ih =>
    rw [run_cons, ← List.singleton_append, ← List.append_assoc]
    apply ih _ h.2
    intro hadmin
    rcases answer_role E h.1 with hsame | ⟨-, token, hpresents, hrole⟩
    · rw [hsame] at hadmin
      rcases hc hadmin with hopen | ⟨f, hf, htoken⟩
      · exact .inl hopen
      · exact .inr ⟨f, List.mem_append_left _ hf, htoken⟩
    · rw [hrole] at hadmin
      exact .inr ⟨frame, by simp, token, authenticate_admin hadmin, hpresents⟩

theorem earned_opened (auth : AuthConfig) (db : δ) :
    Earned auth [] (Connection.opened auth db).role := by
  intro h
  simp only [Connection.opened, AuthConfig.openRole] at h
  split_ifs at h with hopen
  left
  simpa using hopen

/-- Over every sequence of polite frames the gates hold. -/
theorem session_guarded (E : Engine δ) (auth : AuthConfig) (db : δ) (frames : List Frame)
    (h : Guarded (answer E auth) (Polite auth) (.opened auth db) frames)
    (before after : List Frame) (frame : Frame) (hsplit : frames = before ++ frame :: after) :
    Guards E auth before frame (run (answer E auth) (.opened auth db) before) := by
  subst hsplit
  obtain ⟨hbefore, hp⟩ := Guarded.split h
  have hearned := earned_run E (earned_opened auth db) hbefore
  generalize run (answer E auth) (.opened auth db) before = c at hp hearned
  constructor
  · obtain ⟨reply, c', hc', hid, -⟩ := respond_polite E hp
    exact ⟨reply, c', hc', hid⟩
  · intro hrole kind hd
    obtain ⟨-, known, hknown, -⟩ := rule_forward hd
    rw [hrole] at hknown
    cases hknown
  · intro hnone role hrole
    rcases answer_role E hp with hsame | ⟨-, token, hpresents, hearns⟩
    · rw [hsame, hnone] at hrole
      cases hrole
    · exact ⟨token, hpresents, hearns.symm.trans hrole⟩
  · exact hearned
  · intro hreader kind hd
    obtain ⟨-, known, hknown, hpermits, hfloor⟩ := rule_forward hd
    rw [hreader] at hknown
    cases hknown
    constructor
    · simpa [Role.permits] using hpermits
    · intro request hparse name hname hadmin
      rw [forbiddenByFloor, collectionOf_parse hparse hname, Option.bind_some, hadmin] at hfloor
      cases hfloor

/-! ## One token presented twice -/

/-- An engine that holds nothing. -/
def emptyEngine : Engine Unit where
  get c _ := throw (.noSuchCollection c)
  insert c _ _ := throw (.noSuchCollection c)
  update c _ _ := throw (.noSuchCollection c)
  delete c _ := throw (.noSuchCollection c)
  count c := throw (.noSuchCollection c)
  query _ := pure []
  explain _ _ := ""
  optimize := pure ()
  explainOptimizations _ := ""
  metricsText _ := ""
  display _ := ""

def oneToken : AuthConfig := ⟨some "t", none, ∅⟩

def authFrame : Frame := .new 11 7 [1, 0, 0, 0, 0x74]

/-- The second `Auth` frame panics. -/
theorem auth_twice : ¬ Guards emptyEngine oneToken [authFrame] authFrame
    (run (answer emptyEngine oneToken) (.opened oneToken ()) [authFrame]) := by
  intro h
  obtain ⟨reply, c', hc', -⟩ := h.replies
  have hpanic : (match respond emptyEngine oneToken authFrame
      (run (answer emptyEngine oneToken) (.opened oneToken ()) [authFrame]) with
      | .ok _ _ => false
      | .error _ _ => true) = true := by decide +kernel
  rw [hc'] at hpanic
  cases hpanic

theorem auth_then_ping : Guards emptyEngine oneToken [authFrame] (.new 0 8 [])
    (run (answer emptyEngine oneToken) (.opened oneToken ()) [authFrame]) := by
  apply session_guarded emptyEngine oneToken () [authFrame, .new 0 8 []] _ [authFrame] [] _ rfl
  have hfirst : (Connection.opened oneToken ()).role = none := rfl
  have hsecond : (answer emptyEngine oneToken authFrame (.opened oneToken ())).role =
      some .admin := by decide +kernel
  refine ⟨⟨?_, ?_⟩, ⟨?_, ?_⟩, trivial⟩
  · intro h
    exact absurd hfirst h
  · intro _ _ hnone
    exact absurd ⟨rfl, [], by decide +kernel⟩ (hnone "t")
  · intro _
    decide
  · intro h
    rw [hsecond] at h
    cases h

end Adabt.Server
