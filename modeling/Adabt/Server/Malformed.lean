import Adabt.Server.Bodies
import Adabt.Server.Sessions
import Adabt.Storage.RecordBounds

/-! # Malformed bodies

What the body of each kind of request is made of, apart from how it is read. Every
reader fails with the error of a corrupt store, which the status table does not tell
from one: a body that is no request has no effect, but is answered with an internal
error and not as a bad request. -/

set_option autoImplicit false

namespace Adabt.Server
open Adabt.Core Adabt.Ir Adabt.Library Adabt.Storage

/-! ## What a body is made of -/

/-- The bytes of one value and nothing else. -/
def HoldsValue (b : Bytes) (v : OrdValue) : Prop := decodeValue b = .ok (v, b.length)

/-- A record behind its length. -/
def HoldsRecord (b : Bytes) (rec : Record) : Prop :=
  ∃ r : Bytes, r.length < 2 ^ 32 ∧ decodeRecord r = .ok rec ∧ b = Writer.bytes r

inductive HoldsFilter : Bytes → Option (String × CmpOp × OrdValue) → Prop
  | none : HoldsFilter (Writer.u8 0) none
  | some {field : String} (op : CmpOp) {b : Bytes} {v : OrdValue}
      (hfield : field.utf8ByteSize < 2 ^ 32) (hv : HoldsValue b v) :
      HoldsFilter (Writer.u8 1 ++ Writer.str field ++ Writer.u8 (cmpCode op) ++ b)
        (some (field, op, v))

inductive HoldsSpec : Bytes → QuerySpec → Prop
  | mk {collection : String} {b : Bytes} {filter : Option (String × CmpOp × OrdValue)}
      (limit : UInt32) (hcollection : collection.utf8ByteSize < 2 ^ 32)
      (hfilter : HoldsFilter b filter) :
      HoldsSpec (Writer.str collection ++ b ++ Writer.u32 limit.toNat) ⟨collection, filter, limit⟩

/-- The bytes are a request of the kind. -/
inductive Encodes : RequestKind → Bytes → Request → Prop
  | ping : Encodes .ping [] .ping
  | get {c : String} (id : RecordId) (hc : c.utf8ByteSize < 2 ^ 32) :
      Encodes .get (Writer.str c ++ Writer.u64 id) (.get c id)
  | insert {c : String} (id : RecordId) {b : Bytes} {rec : Record} (hc : c.utf8ByteSize < 2 ^ 32)
      (hrec : HoldsRecord b rec) :
      Encodes .insert (Writer.str c ++ Writer.u64 id ++ b) (.insert c id rec)
  | update {c : String} (id : RecordId) {b : Bytes} {rec : Record} (hc : c.utf8ByteSize < 2 ^ 32)
      (hrec : HoldsRecord b rec) :
      Encodes .update (Writer.str c ++ Writer.u64 id ++ b) (.update c id rec)
  | delete {c : String} (id : RecordId) (hc : c.utf8ByteSize < 2 ^ 32) :
      Encodes .delete (Writer.str c ++ Writer.u64 id) (.delete c id)
  | count {c : String} (hc : c.utf8ByteSize < 2 ^ 32) : Encodes .count (Writer.str c) (.count c)
  | query {b : Bytes} {spec : QuerySpec} (h : HoldsSpec b spec) : Encodes .query b (.query spec)
  | explain {b : Bytes} {spec : QuerySpec} (h : HoldsSpec b spec) :
      Encodes .explain b (.explain spec)
  | optimize : Encodes .optimize [] .optimize
  | explainOptimizations : Encodes .explainOptimizations [] .explainOptimizations
  | metrics : Encodes .metrics [] .metrics

def WellFormed (kind : RequestKind) (body : Bytes) : Prop := ∃ request, Encodes kind body request

/-! ## What is read is what was written -/

namespace Reader

theorem take_iff {n : ℕ} {what : String} {buf b rest : Bytes} :
    take n what buf = .ok (b, rest) ↔ b.length = n ∧ buf = b ++ rest := by
  constructor
  · intro h
    rw [take] at h
    split_ifs at h with hn
    cases h
    exact ⟨by rw [List.length_take, Nat.min_eq_left hn], (List.take_append_drop n buf).symm⟩
  · rintro ⟨hb, rfl⟩
    exact take_append what hb rest

theorem u8_iff {what : String} {buf rest : Bytes} {b : UInt8} :
    u8 what buf = .ok (b, rest) ↔ buf = b :: rest := by
  constructor
  · intro h
    obtain ⟨⟨bs, r⟩, ht, h⟩ := bind_eq_ok.mp h
    cases h
    obtain ⟨hlen, rfl⟩ := take_iff.mp ht
    obtain ⟨x, rfl⟩ := List.length_eq_one_iff.mp hlen
    rfl
  · rintro rfl
    exact u8_cons what b rest

theorem u32_iff {what : String} {buf rest : Bytes} {n : ℕ} :
    u32 what buf = .ok (n, rest) ↔ n < 2 ^ 32 ∧ buf = Writer.u32 n ++ rest := by
  constructor
  · intro h
    obtain ⟨⟨bs, r⟩, ht, h⟩ := bind_eq_ok.mp h
    cases h
    obtain ⟨hlen, rfl⟩ := take_iff.mp ht
    have hlt := ofLeBytes_lt bs
    have hback := leBytes_ofLeBytes bs
    rw [hlen] at hlt hback
    exact ⟨hlt, by rw [Writer.u32, hback]⟩
  · rintro ⟨hn, rfl⟩
    exact u32_append what hn rest

theorem bytes_iff {what : String} {buf b rest : Bytes} :
    bytes what buf = .ok (b, rest) ↔ b.length < 2 ^ 32 ∧ buf = Writer.bytes b ++ rest := by
  constructor
  · intro h
    obtain ⟨⟨n, r⟩, hn, htake⟩ := bind_eq_ok.mp h
    obtain ⟨hlt, rfl⟩ := u32_iff.mp hn
    obtain ⟨rfl, rfl⟩ := take_iff.mp htake
    exact ⟨hlt, by rw [Writer.bytes, List.append_assoc]⟩
  · rintro ⟨hb, rfl⟩
    exact bytes_append what hb rest

theorem str_iff {what : String} {buf rest : Bytes} {s : String} :
    str what buf = .ok (s, rest) ↔ s.utf8ByteSize < 2 ^ 32 ∧ buf = Writer.str s ++ rest := by
  constructor
  · intro h
    obtain ⟨⟨b, r⟩, hb, htext⟩ := bind_eq_ok.mp h
    obtain ⟨hlt, rfl⟩ := bytes_iff.mp hb
    dsimp only at htext
    cases hd : decodeUtf8 b with
    | none =>
      rw [hd] at htext
      cases htext
    | some t =>
      rw [hd] at htext
      cases htext
      rw [Writer.str, utf8_of_decodeUtf8 hd, ← utf8_length, utf8_of_decodeUtf8 hd]
      exact ⟨hlt, rfl⟩
  · rintro ⟨hs, rfl⟩
    exact str_append what hs rest

theorem recordId_iff {what : String} {buf rest : Bytes} {id : RecordId} :
    recordId what buf = .ok (id, rest) ↔ buf = Writer.u64 id ++ rest := by
  constructor
  · intro h
    obtain ⟨⟨n, r⟩, hn, h⟩ := bind_eq_ok.mp h
    obtain ⟨⟨bs, r'⟩, ht, hn⟩ := bind_eq_ok.mp hn
    cases hn
    cases h
    obtain ⟨hlen, rfl⟩ := take_iff.mp ht
    have hlt := ofLeBytes_lt bs
    have hback := leBytes_ofLeBytes bs
    rw [hlen] at hlt hback
    have hid : (Fin.ofNat (2 ^ 64) (ofLeBytes bs)).val = ofLeBytes bs := Nat.mod_eq_of_lt hlt
    rw [Writer.u64, hid, hback]
  · rintro rfl
    exact recordId_append what id rest

theorem record_iff {what : String} {buf rest : Bytes} {rec : Record} :
    record what buf = .ok (rec, rest) ↔ ∃ b, HoldsRecord b rec ∧ buf = b ++ rest := by
  constructor
  · intro h
    obtain ⟨⟨r, left⟩, hr, h⟩ := bind_eq_ok.mp h
    obtain ⟨rec', hrec, h⟩ := bind_eq_ok.mp h
    cases h
    obtain ⟨hlt, rfl⟩ := bytes_iff.mp hr
    exact ⟨_, ⟨r, hlt, hrec, rfl⟩, rfl⟩
  · rintro ⟨b, ⟨r, hlt, hrec, rfl⟩, rfl⟩
    rw [record, bytes_append what hlt, ok_bind]
    dsimp only
    rw [hrec]
    rfl

theorem value_iff {buf rest : Bytes} {v : OrdValue} :
    value buf = .ok (v, rest) ↔ ∃ b, HoldsValue b v ∧ buf = b ++ rest := by
  constructor
  · intro h
    obtain ⟨⟨w, used⟩, hd, h⟩ := bind_eq_ok.mp h
    cases h
    have hused := (decodeValue_more hd).1
    have hlen : (buf.take used).length = used := by rw [List.length_take, Nat.min_eq_left hused]
    have hv := Checked.decodeValue_settled hd hlen.ge (by
      rw [List.take_take, Nat.min_self])
    refine ⟨buf.take used, ?_, (List.take_append_drop used buf).symm⟩
    rw [HoldsValue, hlen]
    exact hv
  · rintro ⟨b, hb, rfl⟩
    rw [value, (decodeValue_more hb).2 rest, ok_bind]
    dsimp only
    rw [List.drop_left]
    rfl

end Reader

theorem cmpFromCode_iff {c : UInt8} {op : CmpOp} : cmpFromCode c = .ok op ↔ c = cmpCode op := by
  constructor
  · intro h
    unfold cmpFromCode at h
    apply UInt8.toNat_inj.mp
    split at h <;> cases h <;> assumption
  · rintro rfl
    exact cmpFromCode_cmpCode op

theorem decodeFilter_iff {buf rest : Bytes} {filter : Option (String × CmpOp × OrdValue)} :
    QuerySpec.decodeFilter buf = .ok (filter, rest) ↔ ∃ b, HoldsFilter b filter ∧ buf = b ++ rest := by
  constructor
  · intro h
    obtain ⟨⟨flag, r⟩, hflag, hrest⟩ := bind_eq_ok.mp h
    obtain rfl := Reader.u8_iff.mp hflag
    dsimp only at hrest
    split at hrest
    · rename_i hzero
      cases hrest
      obtain rfl : flag = 0 := UInt8.toNat_inj.mp hzero
      exact ⟨_, .none, rfl⟩
    · rename_i hone
      obtain rfl : flag = 1 := UInt8.toNat_inj.mp hone
      obtain ⟨⟨field, r₁⟩, hfield, hrest⟩ := bind_eq_ok.mp hrest
      obtain ⟨⟨code, r₂⟩, hcode, hrest⟩ := bind_eq_ok.mp hrest
      obtain ⟨op, hop, hrest⟩ := bind_eq_ok.mp hrest
      obtain ⟨⟨v, r₃⟩, hv, hrest⟩ := bind_eq_ok.mp hrest
      cases hrest
      obtain ⟨hsize, rfl⟩ := Reader.str_iff.mp hfield
      obtain rfl := Reader.u8_iff.mp hcode
      obtain rfl := cmpFromCode_iff.mp hop
      obtain ⟨b, hb, rfl⟩ := Reader.value_iff.mp hv
      refine ⟨_, .some op hsize hb, ?_⟩
      simp only [Writer.u8, List.append_assoc, List.cons_append, List.nil_append]
    · cases hrest
  · rintro ⟨b, hb, rfl⟩
    cases hb with
    | none =>
      rw [Writer.u8, List.singleton_append, QuerySpec.decodeFilter, Reader.u8_cons]
      rfl
    | @some field op b v hfield hv =>
      simp only [Writer.u8, List.append_assoc, List.cons_append, List.nil_append]
      rw [QuerySpec.decodeFilter, Reader.u8_cons, ok_bind]
      refine bind_eq_ok.mpr ⟨_, Reader.str_append _ hfield _, ?_⟩
      refine bind_eq_ok.mpr ⟨_, Reader.u8_cons _ _ _, ?_⟩
      refine bind_eq_ok.mpr ⟨_, cmpFromCode_cmpCode op, ?_⟩
      exact bind_eq_ok.mpr ⟨_, Reader.value_iff.mpr ⟨b, hv, rfl⟩, rfl⟩

theorem decode_iff {buf : Bytes} {spec : QuerySpec} :
    QuerySpec.decode buf = .ok spec ↔ HoldsSpec buf spec := by
  constructor
  · intro h
    obtain ⟨⟨collection, r₁⟩, hcollection, h⟩ := bind_eq_ok.mp h
    obtain ⟨⟨filter, r₂⟩, hfilter, h⟩ := bind_eq_ok.mp h
    obtain ⟨⟨limit, r₃⟩, hlimit, h⟩ := bind_eq_ok.mp h
    obtain ⟨u, hdone, hspec⟩ := bind_eq_ok.mp h
    cases hspec
    obtain rfl := (Reader.done_append r₃).mp hdone
    obtain ⟨hlt, rfl⟩ := Reader.u32_iff.mp hlimit
    obtain ⟨b, hb, rfl⟩ := decodeFilter_iff.mp hfilter
    obtain ⟨hsize, rfl⟩ := Reader.str_iff.mp hcollection
    have hlimit : (UInt32.ofNat limit).toNat = limit := by
      rw [UInt32.toNat_ofNat', Nat.mod_eq_of_lt hlt]
    have hspec := HoldsSpec.mk (UInt32.ofNat limit) hsize hb
    rwa [hlimit, List.append_assoc, ← List.append_nil (Writer.u32 limit)] at hspec
  · rintro ⟨limit, hsize, hb⟩
    rw [List.append_assoc, QuerySpec.decode, Reader.str_append _ hsize, ok_bind]
    refine bind_eq_ok.mpr ⟨_, decodeFilter_iff.mpr ⟨_, hb, rfl⟩, ?_⟩
    have hlimit := Reader.u32_append "limit" limit.toNat_lt []
    rw [List.append_nil] at hlimit
    refine bind_eq_ok.mpr ⟨_, hlimit, ?_⟩
    dsimp only
    rw [UInt32.ofNat_toNat]
    rfl

namespace Request

theorem bare_iff {body : Bytes} {request r : Request} :
    bare body request = .ok r ↔ body = [] ∧ r = request := by
  constructor
  · intro h
    obtain ⟨u, hdone, h⟩ := bind_eq_ok.mp h
    cases h
    exact ⟨(Reader.done_append body).mp hdone, rfl⟩
  · rintro ⟨rfl, rfl⟩
    rfl

theorem parseKeyed_iff {body rest : Bytes} {c : String} {id : RecordId} :
    parseKeyed body = .ok (c, id, rest) ↔
      c.utf8ByteSize < 2 ^ 32 ∧ body = Writer.str c ++ Writer.u64 id ++ rest := by
  constructor
  · intro h
    obtain ⟨⟨c', r₁⟩, hc, h⟩ := bind_eq_ok.mp h
    obtain ⟨⟨id', r₂⟩, hid, hkey⟩ := bind_eq_ok.mp h
    cases hkey
    obtain rfl := Reader.recordId_iff.mp hid
    obtain ⟨hsize, rfl⟩ := Reader.str_iff.mp hc
    exact ⟨hsize, (List.append_assoc _ _ _).symm⟩
  · rintro ⟨hsize, rfl⟩
    rw [parseKeyed, List.append_assoc, Reader.str_append _ hsize, ok_bind]
    exact bind_eq_ok.mpr ⟨_, Reader.recordId_append _ id rest, rfl⟩

theorem parseRecord_iff {body : Bytes} {c : String} {id : RecordId} {rec : Record} :
    parseRecord body = .ok (c, id, rec) ↔ c.utf8ByteSize < 2 ^ 32 ∧
      ∃ b, HoldsRecord b rec ∧ body = Writer.str c ++ Writer.u64 id ++ b := by
  constructor
  · intro h
    obtain ⟨⟨c', id', r₁⟩, hkey, h⟩ := bind_eq_ok.mp h
    obtain ⟨⟨rec', r₂⟩, hrec, h⟩ := bind_eq_ok.mp h
    obtain ⟨u, hdone, hall⟩ := bind_eq_ok.mp h
    cases hall
    obtain rfl := (Reader.done_append r₂).mp hdone
    obtain ⟨b, hb, rfl⟩ := Reader.record_iff.mp hrec
    obtain ⟨hsize, rfl⟩ := parseKeyed_iff.mp hkey
    exact ⟨hsize, b, hb, by rw [List.append_nil]⟩
  · rintro ⟨hsize, b, hb, rfl⟩
    refine bind_eq_ok.mpr ⟨_, parseKeyed_iff.mpr ⟨hsize, rfl⟩, ?_⟩
    refine bind_eq_ok.mpr ⟨_, Reader.record_iff.mpr ⟨b, hb, (List.append_nil b).symm⟩, ?_⟩
    rfl

theorem encodes_of_parse {kind : RequestKind} {body : Bytes} {request : Request}
    (h : parse kind body = some (.ok request)) : Encodes kind body request := by
  have hparsed {r : Except Error Request} (hr : some r = some (.ok request)) : r = .ok request :=
    Option.some.inj hr
  cases kind with
  | auth => cases h
  | ping =>
    obtain ⟨rfl, rfl⟩ := bare_iff.mp (hparsed h)
    exact .ping
  | get =>
    obtain ⟨⟨c, id, rest⟩, hkey, h⟩ := bind_eq_ok.mp (hparsed h)
    obtain ⟨u, hdone, hall⟩ := bind_eq_ok.mp h
    cases hall
    obtain rfl := (Reader.done_append rest).mp hdone
    obtain ⟨hsize, rfl⟩ := parseKeyed_iff.mp hkey
    rw [List.append_nil]
    exact .get id hsize
  | insert =>
    obtain ⟨⟨c, id, rec⟩, hrec, hall⟩ := bind_eq_ok.mp (hparsed h)
    cases hall
    obtain ⟨hsize, b, hb, rfl⟩ := parseRecord_iff.mp hrec
    exact .insert id hsize hb
  | update =>
    obtain ⟨⟨c, id, rec⟩, hrec, hall⟩ := bind_eq_ok.mp (hparsed h)
    cases hall
    obtain ⟨hsize, b, hb, rfl⟩ := parseRecord_iff.mp hrec
    exact .update id hsize hb
  | delete =>
    obtain ⟨⟨c, id, rest⟩, hkey, h⟩ := bind_eq_ok.mp (hparsed h)
    obtain ⟨u, hdone, hall⟩ := bind_eq_ok.mp h
    cases hall
    obtain rfl := (Reader.done_append rest).mp hdone
    obtain ⟨hsize, rfl⟩ := parseKeyed_iff.mp hkey
    rw [List.append_nil]
    exact .delete id hsize
  | count =>
    obtain ⟨⟨c, rest⟩, hc, h⟩ := bind_eq_ok.mp (hparsed h)
    obtain ⟨u, hdone, hall⟩ := bind_eq_ok.mp h
    cases hall
    obtain rfl := (Reader.done_append rest).mp hdone
    obtain ⟨hsize, rfl⟩ := Reader.str_iff.mp hc
    rw [List.append_nil]
    exact .count hsize
  | query =>
    obtain ⟨spec, hspec, hall⟩ := bind_eq_ok.mp (hparsed h)
    cases hall
    exact .query (decode_iff.mp hspec)
  | explain =>
    obtain ⟨spec, hspec, hall⟩ := bind_eq_ok.mp (hparsed h)
    cases hall
    exact .explain (decode_iff.mp hspec)
  | optimize =>
    obtain ⟨rfl, rfl⟩ := bare_iff.mp (hparsed h)
    exact .optimize
  | explainOptimizations =>
    obtain ⟨rfl, rfl⟩ := bare_iff.mp (hparsed h)
    exact .explainOptimizations
  | metrics =>
    obtain ⟨rfl, rfl⟩ := bare_iff.mp (hparsed h)
    exact .metrics

theorem parse_encoded {kind : RequestKind} {body : Bytes} {request : Request}
    (h : Encodes kind body request) : parse kind body = some (.ok request) := by
  have hkeyed {c : String} (id : RecordId) (hc : c.utf8ByteSize < 2 ^ 32) :
      parseKeyed (Writer.str c ++ Writer.u64 id) = .ok (c, id, []) :=
    parseKeyed_iff.mpr ⟨hc, (List.append_nil _).symm⟩
  cases h with
  | ping => rfl
  | get id hc => exact congrArg some (bind_eq_ok.mpr ⟨_, hkeyed id hc, rfl⟩)
  | insert id hc hrec =>
    exact congrArg some (bind_eq_ok.mpr ⟨_, parseRecord_iff.mpr ⟨hc, _, hrec, rfl⟩, rfl⟩)
  | update id hc hrec =>
    exact congrArg some (bind_eq_ok.mpr ⟨_, parseRecord_iff.mpr ⟨hc, _, hrec, rfl⟩, rfl⟩)
  | delete id hc => exact congrArg some (bind_eq_ok.mpr ⟨_, hkeyed id hc, rfl⟩)
  | count hc =>
    exact congrArg some (bind_eq_ok.mpr ⟨_, Reader.str_iff.mpr ⟨hc, (List.append_nil _).symm⟩, rfl⟩)
  | query h => exact congrArg some (bind_eq_ok.mpr ⟨_, decode_iff.mpr h, rfl⟩)
  | explain h => exact congrArg some (bind_eq_ok.mpr ⟨_, decode_iff.mpr h, rfl⟩)
  | optimize => rfl
  | explainOptimizations => rfl
  | metrics => rfl

end Request

/-! ## What a body cannot be read as -/

def Corrupt (e : Error) : Prop := ∃ message, e = .corruption message

theorem corrupt (message : String) : Corrupt (.corruption message) := ⟨message, rfl⟩

/-- A corrupt store and a malformed body are one to the status table. -/
theorem status_of_corrupt {e : Error} (h : Corrupt e) : StatusCode.of e = .internal := by
  obtain ⟨message, rfl⟩ := h
  rfl

theorem corrupt_of_runOn {α : Type} {x : BufferReader α} {k : ℕ} {old : Except Error α} {buf : Bytes}
    (hx : Reading.Contained Fault.Corrupted k x) (h : LiftsFault old (x.runOn buf)) :
    FailsOnly Corrupt old := by
  intro e he
  rcases hx.runOn buf with ⟨a, ha⟩ | ⟨f, hf, message, rfl⟩
  · rw [h.ok_iff.mp ha] at he
    cases he
  · rw [h, he] at hf
    cases hf
    exact corrupt message

theorem header_corrupt (buf : Bytes) : FailsOnly Corrupt (RecordHeader.read buf) :=
  .ite (failsOnly_error (corrupt _)) (.ite (failsOnly_error (corrupt _)) (failsOnly_ok _))

theorem decodeRecord_corrupt (buf : Bytes) : FailsOnly Corrupt (decodeRecord buf) := by
  have hdynamic : recordCodec.schema.mode = .dynamic := rfl
  have hread := corrupt_of_runOn Checked.contained_readDynamic (Checked.readDynamic_lifts buf)
  rw [decodeRecord, RecordCodec.decode, RecordCodec.decodeWithHeader]
  refine ((header_corrupt buf).bind fun header => ?_).bind fun r => failsOnly_ok r.2
  rw [if_pos hdynamic, ← bind_assoc]
  exact hread.bind fun rec => failsOnly_ok (header, rec)

theorem decodeValue_corrupt (buf : Bytes) : FailsOnly Corrupt (decodeValue buf) :=
  corrupt_of_runOn (Checked.contained_readTlvValue.seq fun _ => Reading.contained_position.seq fun _ =>
    Reading.contained_pure _) (Checked.decodeValue_eq buf)

namespace Reader

theorem take_corrupt (n : ℕ) (what : String) (buf : Bytes) : FailsOnly Corrupt (take n what buf) :=
  .ite (failsOnly_ok _) (failsOnly_error (corrupt _))

theorem u8_corrupt (what : String) (buf : Bytes) : FailsOnly Corrupt (u8 what buf) :=
  (take_corrupt 1 what buf).bind fun _ => failsOnly_ok _

theorem u32_corrupt (what : String) (buf : Bytes) : FailsOnly Corrupt (u32 what buf) :=
  (take_corrupt 4 what buf).bind fun _ => failsOnly_ok _

theorem recordId_corrupt (what : String) (buf : Bytes) : FailsOnly Corrupt (recordId what buf) :=
  ((take_corrupt 8 what buf).bind fun _ => failsOnly_ok _).bind fun _ => failsOnly_ok _

theorem bytes_corrupt (what : String) (buf : Bytes) : FailsOnly Corrupt (bytes what buf) :=
  (u32_corrupt what buf).bind fun r => take_corrupt r.1 what r.2

theorem str_corrupt (what : String) (buf : Bytes) : FailsOnly Corrupt (str what buf) := by
  refine (bytes_corrupt what buf).bind fun r => ?_
  dsimp only
  cases decodeUtf8 r.1 with
  | some s => exact failsOnly_ok _
  | none => exact failsOnly_error (corrupt _)

theorem value_corrupt (buf : Bytes) : FailsOnly Corrupt (value buf) :=
  (decodeValue_corrupt buf).bind fun _ => failsOnly_ok _

theorem record_corrupt (what : String) (buf : Bytes) : FailsOnly Corrupt (record what buf) :=
  (bytes_corrupt what buf).bind fun r => (decodeRecord_corrupt r.1).bind fun _ => failsOnly_ok _

theorem done_corrupt (buf : Bytes) : FailsOnly Corrupt (done buf) :=
  .ite (failsOnly_ok _) (failsOnly_error (corrupt _))

end Reader

theorem cmpFromCode_corrupt (c : UInt8) : FailsOnly Corrupt (cmpFromCode c) := by
  unfold cmpFromCode
  split <;> first | exact failsOnly_ok _ | exact failsOnly_error (corrupt _)

theorem decodeFilter_corrupt (buf : Bytes) : FailsOnly Corrupt (QuerySpec.decodeFilter buf) := by
  refine (Reader.u8_corrupt "filter flag" buf).bind fun r => ?_
  dsimp only
  split
  · exact failsOnly_ok _
  · exact (Reader.str_corrupt _ _).bind fun _ => (Reader.u8_corrupt _ _).bind fun r =>
      (cmpFromCode_corrupt r.1).bind fun _ => (Reader.value_corrupt _).bind fun _ => failsOnly_ok _
  · exact failsOnly_error (corrupt _)

theorem decode_corrupt (buf : Bytes) : FailsOnly Corrupt (QuerySpec.decode buf) :=
  (Reader.str_corrupt _ _).bind fun _ => (decodeFilter_corrupt _).bind fun _ =>
    (Reader.u32_corrupt _ _).bind fun _ => (Reader.done_corrupt _).bind fun _ => failsOnly_ok _

namespace Request

theorem bare_corrupt (body : Bytes) (request : Request) : FailsOnly Corrupt (bare body request) :=
  (Reader.done_corrupt body).bind fun _ => failsOnly_ok _

theorem parseKeyed_corrupt (body : Bytes) : FailsOnly Corrupt (parseKeyed body) :=
  (Reader.str_corrupt _ _).bind fun _ => (Reader.recordId_corrupt _ _).bind fun _ => failsOnly_ok _

theorem parseRecord_corrupt (body : Bytes) : FailsOnly Corrupt (parseRecord body) :=
  (parseKeyed_corrupt body).bind fun _ => (Reader.record_corrupt _ _).bind fun _ =>
    (Reader.done_corrupt _).bind fun _ => failsOnly_ok _

/-- Every body that is not read is taken for corrupt bytes. -/
theorem parse_corrupt {kind : RequestKind} {body : Bytes} {r : Except Error Request}
    (h : parse kind body = some r) : FailsOnly Corrupt r := by
  cases kind with
  | auth => cases h
  | ping => exact Option.some.inj h ▸ bare_corrupt body _
  | get =>
    exact Option.some.inj h ▸ (parseKeyed_corrupt body).bind fun _ =>
      (Reader.done_corrupt _).bind fun _ => failsOnly_ok _
  | insert => exact Option.some.inj h ▸ (parseRecord_corrupt body).bind fun _ => failsOnly_ok _
  | update => exact Option.some.inj h ▸ (parseRecord_corrupt body).bind fun _ => failsOnly_ok _
  | delete =>
    exact Option.some.inj h ▸ (parseKeyed_corrupt body).bind fun _ =>
      (Reader.done_corrupt _).bind fun _ => failsOnly_ok _
  | count =>
    exact Option.some.inj h ▸ (Reader.str_corrupt _ _).bind fun _ =>
      (Reader.done_corrupt _).bind fun _ => failsOnly_ok _
  | query => exact Option.some.inj h ▸ (decode_corrupt body).bind fun _ => failsOnly_ok _
  | explain => exact Option.some.inj h ▸ (decode_corrupt body).bind fun _ => failsOnly_ok _
  | optimize => exact Option.some.inj h ▸ bare_corrupt body _
  | explainOptimizations => exact Option.some.inj h ▸ bare_corrupt body _
  | metrics => exact Option.some.inj h ▸ bare_corrupt body _

end Request

/-! ## What is answered -/

variable {δ : Type}

/-- The role may issue the kind, and no floor of the collection that is named is above it. -/
structure Permitted (auth : AuthConfig) (known : Role) (kind : RequestKind) (body : Bytes) :
    Prop where
  role : known.permits kind
  floor : forbiddenByFloor auth known kind body = false

/-- The reply to a request that was carried out, and the connection after it. -/
def carriedOut (E : Engine δ) (request : Request) (frame : Frame) (c : Connection δ) :
    EStateM.Result Fault (Connection δ) Frame :=
  match serve E request c.db with
  | .ok body db => .ok (.new StatusCode.ok.code frame.requestId body) { c with db := db }
  | .error e db => .ok (errorFrame frame.requestId (.of e) (E.display e)) { c with db := db }

/-- A body that is no request is a bad request and has no effect; one that is a request
reaches its operation. -/
structure BodyAnswered (E : Engine δ) (auth : AuthConfig) (kind : RequestKind) (frame : Frame)
    (c : Connection δ) : Prop where
  malformed : ¬WellFormed kind frame.body →
    ∃ message, respond E auth frame c = .ok (errorFrame frame.requestId .badRequest message) c
  reached : ∀ request, Encodes kind frame.body request →
    respond E auth frame c = carriedOut E request frame c

section Respond

variable (E : Engine δ) {auth : AuthConfig} {frame : Frame} {c : Connection δ} {kind : RequestKind}
  {known : Role}

theorem rule_of_permitted (hkind : RequestKind.fromCode frame.kind = some kind)
    (hrole : c.role = some known) (h : Permitted auth known kind frame.body) :
    rule auth c.role frame = .forward kind := by
  unfold rule
  rw [hkind, hrole]
  dsimp only
  rw [h.role, h.floor]
  rfl

theorem respond_encoded (hrule : rule auth c.role frame = .forward kind) {request : Request}
    (h : Encodes kind frame.body request) :
    respond E auth frame c = carriedOut E request frame c := by
  unfold respond dispatch carriedOut
  rw [hrule]
  dsimp only
  rw [Request.parse_encoded h]
  dsimp only
  cases serve E request c.db with
  | ok body db => rfl
  | error e db => rfl

/-- It has no effect, but is answered as an error of the server's own. -/
theorem respond_malformed (hrule : rule auth c.role frame = .forward kind) (hauth : kind ≠ .auth)
    (h : ¬WellFormed kind frame.body) :
    ∃ message, respond E auth frame c = .ok (errorFrame frame.requestId .internal message) c := by
  have hparse : ∃ r, Request.parse kind frame.body = some r := by
    cases kind with
    | auth => exact absurd rfl hauth
    | _ => exact ⟨_, rfl⟩
  obtain ⟨r, hr⟩ := hparse
  cases r with
  | ok request => exact absurd ⟨request, Request.encodes_of_parse hr⟩ h
  | error e =>
    have hstatus := status_of_corrupt (Request.parse_corrupt hr e rfl)
    refine ⟨E.display e, ?_⟩
    unfold respond dispatch
    rw [hrule]
    dsimp only
    rw [hr]
    dsimp only
    rw [hstatus]

theorem internal_ne_badRequest (id : UInt64) (message message' : String) :
    errorFrame id .internal message ≠ errorFrame id .badRequest message' := by
  intro h
  have hcode := congrArg Frame.kind h
  exact absurd hcode (show StatusCode.internal.code ≠ StatusCode.badRequest.code by decide)

/-- A body is answered as it should be exactly when it is the encoding of a request. -/
theorem body_answered_iff (hkind : RequestKind.fromCode frame.kind = some kind)
    (hauth : kind ≠ .auth) (hrole : c.role = some known)
    (hpermitted : Permitted auth known kind frame.body) :
    BodyAnswered E auth kind frame c ↔ WellFormed kind frame.body := by
  have hrule := rule_of_permitted hkind hrole hpermitted
  constructor
  · intro h
    by_contra hbad
    obtain ⟨message, hinternal⟩ := respond_malformed E hrule hauth hbad
    obtain ⟨message', hbadRequest⟩ := h.malformed hbad
    rw [hinternal] at hbadRequest
    exact internal_ne_badRequest _ _ _ (EStateM.Result.ok.inj hbadRequest).1
  · intro h
    exact ⟨fun hbad => absurd h hbad, fun request hrequest => respond_encoded E hrule hrequest⟩

end Respond

/-- A counting engine that prints nothing. -/
def idleEngine : Engine ℕ where
  get _ _ := return none
  insert _ _ _ := modify (· + 1)
  update _ _ _ := return false
  delete _ _ := return false
  count _ := get
  query _ := return []
  explain _ _ := ""
  optimize := return ()
  explainOptimizations _ := ""
  metricsText _ := ""
  display _ := ""

def openAuth : AuthConfig := ⟨none, none, ∅⟩

/-- A ping with a byte behind it is answered with an internal error. -/
theorem trailing_byte_internal :
    (Connection.opened openAuth 3).role = some .admin ∧ Permitted openAuth .admin .ping [0] ∧
      ¬BodyAnswered idleEngine openAuth .ping (.new 0 7 [0]) (.opened openAuth 3) := by
  refine ⟨rfl, ⟨rfl, rfl⟩, fun h => ?_⟩
  have hbad : ¬WellFormed .ping [0] := by
    rintro ⟨request, hrequest⟩
    cases hrequest
  obtain ⟨message, hmessage⟩ := h.malformed hbad
  have hreply := congrArg Frame.kind (EStateM.Result.ok.inj hmessage).1
  exact absurd hreply (show StatusCode.internal.code ≠ StatusCode.badRequest.code by decide)

theorem count_answered :
    BodyAnswered idleEngine openAuth .count (.new 5 7 (Writer.str "a")) (.opened openAuth 3) :=
  (body_answered_iff idleEngine rfl (by decide) rfl ⟨rfl, rfl⟩).mpr
    ⟨.count "a", .count (by decide)⟩

end Adabt.Server
