import Adabt.Library.Program
import Adabt.Library.OrdMap
import Adabt.Server.Wire
import Mathlib.Data.String.Basic

/-! # Answering a frame

A frame passes two gates, authentication and authorization, before the engine is
touched. The role a connection earned is its only state. The engine is a
parameter: nothing here depends on what it answers. -/

set_option autoImplicit false

namespace Adabt.Server
open Adabt.Core Adabt.Ir Adabt.Library Adabt.Storage

inductive Role where
  | admin
  | reader
  deriving DecidableEq, Repr

namespace Role

/-- Whether this role may issue `kind`. -/
def permits : Role → RequestKind → Bool
  | .admin, _ => true
  | .reader, kind => kind ≠ .insert ∧ kind ≠ .update ∧ kind ≠ .delete ∧ kind ≠ .optimize

def atLeast : Role → Role → Bool
  | _, .reader => true
  | .admin, _ => true
  | .reader, .admin => false

end Role

/-- Every byte is looked at. -/
def tokensMatch (want got : String) : Bool :=
  let w := utf8 want
  let g := utf8 got
  if w.length ≠ g.length then false
  else (w.zip g).foldl (fun diff p => diff ||| (p.1 ^^^ p.2)) 0 == 0

/-- The server's credential table. -/
structure AuthConfig where
  adminToken : Option String
  readerToken : Option String
  floors : OrdMap String Role

namespace AuthConfig

/-- Without credentials the listener is open. -/
def openRole (a : AuthConfig) : Option Role :=
  if a.adminToken.isNone && a.readerToken.isNone then some .admin else none

def authenticate (a : AuthConfig) (presented : String) : Option Role :=
  if a.adminToken.any (tokensMatch · presented) then some .admin
  else if a.readerToken.any (tokensMatch · presented) then some .reader
  else none

end AuthConfig

/-! ## Requests -/

/-- What a request body asks of the engine. -/
inductive Request where
  | ping
  | get (collection : String) (id : RecordId)
  | insert (collection : String) (id : RecordId) (rec : Record)
  | update (collection : String) (id : RecordId) (rec : Record)
  | delete (collection : String) (id : RecordId)
  | count (collection : String)
  | query (spec : QuerySpec)
  | explain (spec : QuerySpec)
  | optimize
  | explainOptimizations
  | metrics

namespace Request

/-- The collection a request names. -/
def collection : Request → Option String
  | .get c _ => some c
  | .insert c _ _ => some c
  | .update c _ _ => some c
  | .delete c _ => some c
  | .count c => some c
  | .query spec => some spec.collection
  | .explain spec => some spec.collection
  | _ => none

/-- A write, or a trigger of the optimizer. -/
def changes : Request → Bool
  | .insert _ _ _ => true
  | .update _ _ _ => true
  | .delete _ _ => true
  | .optimize => true
  | _ => false

def parseKeyed (body : Bytes) : Except Error (String × RecordId × Bytes) := do
  let (collection, buf) ← Reader.str "collection" body
  let (id, buf) ← Reader.recordId "id" buf
  return (collection, id, buf)

def parseRecord (body : Bytes) : Except Error (String × RecordId × Record) := do
  let (collection, id, buf) ← parseKeyed body
  let (rec, buf) ← Reader.record "record" buf
  Reader.done buf
  return (collection, id, rec)

def bare (body : Bytes) (request : Request) : Except Error Request := do
  Reader.done body
  return request

/-- Read the body of a request. There is none behind `Auth`, which `respond` is meant to
handle itself. -/
def parse (kind : RequestKind) (body : Bytes) : Option (Except Error Request) :=
  match kind with
  | .auth => none
  | .ping => some (bare body .ping)
  | .get => some do
    let (collection, id, buf) ← parseKeyed body
    Reader.done buf
    return .get collection id
  | .insert => some do
    let (collection, id, rec) ← parseRecord body
    return .insert collection id rec
  | .update => some do
    let (collection, id, rec) ← parseRecord body
    return .update collection id rec
  | .delete => some do
    let (collection, id, buf) ← parseKeyed body
    Reader.done buf
    return .delete collection id
  | .count => some do
    let (collection, buf) ← Reader.str "collection" body
    Reader.done buf
    return .count collection
  | .query => some do
    let spec ← QuerySpec.decode body
    return .query spec
  | .explain => some do
    let spec ← QuerySpec.decode body
    return .explain spec
  | .optimize => some (bare body .optimize)
  | .explainOptimizations => some (bare body .explainOptimizations)
  | .metrics => some (bare body .metrics)

end Request

/-- The engine behind the server, and how it prints its errors. -/
structure Engine (δ : Type) where
  get : String → RecordId → EStateM Error δ (Option Record)
  insert : String → RecordId → Record → EStateM Error δ Unit
  update : String → RecordId → Record → EStateM Error δ Bool
  delete : String → RecordId → EStateM Error δ Bool
  count : String → EStateM Error δ ℕ
  query : LogicalOp → EStateM Error δ (List (RecordId × Record))
  explain : LogicalOp → δ → String
  optimize : EStateM Error δ Unit
  explainOptimizations : δ → String
  metricsText : δ → String
  display : Error → String

variable {δ : Type}

/-- Carry a request out and encode the result. -/
def serve (E : Engine δ) : Request → EStateM Error δ Bytes
  | .ping => return []
  | .get collection id => do
    match ← E.get collection id with
    | some rec =>
      let b ← attempt (Writer.record rec)
      return Writer.u8 1 ++ b
    | none => return Writer.u8 0
  | .insert collection id rec => do
    E.insert collection id rec
    return []
  | .update collection id rec => do
    let existed ← E.update collection id rec
    return Writer.u8 (if existed then 1 else 0)
  | .delete collection id => do
    let existed ← E.delete collection id
    return Writer.u8 (if existed then 1 else 0)
  | .count collection => do
    let n ← E.count collection
    return Writer.u64 n
  | .query spec => do
    let rows ← E.query spec.toPlan
    attempt (encodeRows rows)
  | .explain spec => return Writer.str (E.explain spec.toPlan (← get))
  | .optimize => do
    E.optimize
    return Writer.str (E.explainOptimizations (← get))
  | .explainOptimizations => return Writer.str (E.explainOptimizations (← get))
  | .metrics => return Writer.str (E.metricsText (← get))

/-! ## Replies -/

def errorFrame (id : UInt64) (status : StatusCode) (message : String) : Frame :=
  .new status.code id (Writer.str message)

/-- The collection a request names, if its kind carries one and the body names it. -/
def collectionOf (kind : RequestKind) (body : Bytes) : Option String :=
  match kind with
  | .get | .insert | .update | .delete | .count | .query | .explain =>
    match Reader.str "collection" body with
    | .ok (c, _) => some c
    | .error _ => none
  | _ => none

/-- What the gates make of a frame: a reply and the role from then on, or a request to
dispatch. -/
inductive Ruling where
  | reply (frame : Frame) (role : Option Role)
  | forward (kind : RequestKind)

/-- The token of an `Auth` body, empty when it cannot be read. -/
def presentedToken (body : Bytes) : String :=
  match Reader.str "auth token" body with
  | .ok (token, _) => token
  | .error _ => ""

def forbiddenByFloor (auth : AuthConfig) (role : Role) (kind : RequestKind) (body : Bytes) :
    Bool :=
  match (collectionOf kind body).bind auth.floors.get with
  | some floor => !role.atLeast floor
  | none => false

def rule (auth : AuthConfig) (role : Option Role) (frame : Frame) : Ruling :=
  let id := frame.requestId
  match RequestKind.fromCode frame.kind with
  | none => .reply (errorFrame id .badRequest ("unknown request kind " ++
      toString frame.kind.toNat)) role
  | some kind =>
    match role with
    | none =>
      if kind ≠ .auth then .reply (errorFrame id .unauthorized "authentication required") none
      else
        match auth.authenticate (presentedToken frame.body) with
        | some earned => .reply (.new StatusCode.ok.code id []) (some earned)
        | none => .reply (errorFrame id .authDenied
            "authentication failed; the connection remains unauthenticated") none
    | some known =>
      if !known.permits kind then
        .reply (errorFrame id .forbidden "this connection's role does not permit that request") role
      else if forbiddenByFloor auth known kind frame.body then
        .reply (errorFrame id .forbidden "this collection requires a higher-role credential") role
      else .forward kind

/-- A connection: the role it has earned, and the engine all share. -/
structure Connection (δ : Type) where
  role : Option Role
  db : δ

def Connection.opened (auth : AuthConfig) (db : δ) : Connection δ := ⟨auth.openRole, db⟩

/-- Parse and carry out. A kind with nothing to parse is the `unreachable!` of the source. -/
def dispatch (E : Engine δ) (kind : RequestKind) (body : Bytes) : EStateM Fault δ Bytes := fun db =>
  match Request.parse kind body with
  | none => .error (.panicked "respond handles Auth before dispatch") db
  | some (.error e) => .error (.error e) db
  | some (.ok request) =>
    match serve E request db with
    | .ok b db => .ok b db
    | .error e db => .error (.error e) db

/-- One reply for one frame; only a panic leaves without one. -/
def respond (E : Engine δ) (auth : AuthConfig) (frame : Frame) :
    EStateM Fault (Connection δ) Frame := fun c =>
  match rule auth c.role frame with
  | .reply reply role => .ok reply { c with role := role }
  | .forward kind =>
    match dispatch E kind frame.body c.db with
    | .ok body db => .ok (.new StatusCode.ok.code frame.requestId body) { c with db := db }
    | .error (.error e) db =>
      .ok (errorFrame frame.requestId (.of e) (E.display e)) { c with db := db }
    | .error (.panicked message) db => .error (.panicked message) { c with db := db }

end Adabt.Server
