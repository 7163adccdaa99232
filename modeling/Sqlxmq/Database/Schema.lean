import Mathlib.Algebra.Order.Ring.Int
import Mathlib.Data.Fin.Basic
import Mathlib.Order.Fin.Basic
import Sqlxmq.Database.Error
import Sqlxmq.Library.KeyedTable

/-! The tables of the message queue. Timestamps and intervals are exact
microsecond counts, and a poll fails where it computes one that its type
cannot hold. A stored database state satisfies every constraint that the
schema declares, so a statement that would violate one has no successor state
to return. -/
namespace Sqlxmq

open KeyedTable

/-- 128-bit identifiers in the byte order of the type `UUID`. -/
abbrev Uuid := Fin (2 ^ 128)

instance : LawfulBEq Uuid := inferInstance

instance Uuid.neZero : NeZero (2 ^ 128) := ⟨by decide⟩

def uuidNil : Uuid := 0

/-- Microseconds since 2000-01-01, the epoch of the database. -/
abbrev Timestamp := Int

/-- A length of time in microseconds. -/
abbrev Interval := Int

abbrev second : Interval := 1000000

namespace Timestamp

/-- From the year 4714 BC until the end of the year 294276. -/
def Fits (t : Int) : Prop := -211813488000000000 ≤ t ∧ t < 9223371331200000000

instance (t : Int) : Decidable (Fits t) := inferInstanceAs (Decidable (_ ∧ _))

/-- The sum of a timestamp and an interval. -/
def ofInt (t : Int) : Except DbError Timestamp :=
  if Fits t then .ok t else .error .datetimeFieldOverflow

theorem ofInt_eq_ok_iff {t : Int} {u : Timestamp} : ofInt t = .ok u ↔ Fits t ∧ u = t := by
  unfold ofInt
  split <;> simp_all [eq_comm]

end Timestamp

namespace Interval

/-- Twice the interval fits into 64 bits, when its factor has been rounded to
the nearest `DOUBLE PRECISION`. -/
def Doubles (d : Interval) : Prop := -2 ^ 62 - 512 ≤ d ∧ d < 2 ^ 62 - 256

instance (d : Interval) : Decidable (Doubles d) := inferInstanceAs (Decidable (_ ∧ _))

/-- `d * 2` -/
def timesTwo (d : Interval) : Except DbError Interval :=
  if Doubles d then .ok (d * 2) else .error .datetimeFieldOverflow

theorem timesTwo_eq_ok_iff {d e : Interval} : timesTwo d = .ok e ↔ Doubles d ∧ e = d * 2 := by
  unfold timesTwo
  split <;> simp_all [eq_comm]

-- the first factor that is rounded to 2^62
example : (timesTwo (2 ^ 62 - 257)).toOption.isSome ∧
    timesTwo (2 ^ 62 - 256) = .error .datetimeFieldOverflow := ⟨rfl, rfl⟩

end Interval

/-- A value of a column of type `INT`. -/
structure Int4 where
  val : Int
  lower : -2 ^ 31 ≤ val
  upper : val < 2 ^ 31
deriving DecidableEq

namespace Int4

/-- The result of `INT` arithmetic, which fails outside of 32 bits. -/
def ofInt (n : Int) : Except DbError Int4 :=
  if h : -2 ^ 31 ≤ n ∧ n < 2 ^ 31 then .ok ⟨n, h.1, h.2⟩ else .error .numericValueOutOfRange

theorem ext_val {a b : Int4} (h : a.val = b.val) : a = b := by
  cases a
  cases b
  simpa using h

theorem ofInt_eq_ok_iff {n : Int} {a : Int4} : ofInt n = .ok a ↔ a.val = n := by
  unfold ofInt
  split
  · constructor
    · intro h
      rw [← Except.ok.inj h]
    · intro h
      exact congrArg Except.ok (ext_val h.symm)
  · rename_i hRange
    constructor
    · intro h
      cases h
    · rintro rfl
      exact absurd ⟨a.lower, a.upper⟩ hRange

end Int4

/-- A channel is a name with arguments. Ordering is per channel. -/
@[ext] structure Channel where
  name : String
  args : String
deriving DecidableEq

/-- The UDT for creating messages. -/
structure MqNew where
  /-- Unique message ID -/
  id : Uuid
  /-- Delay before message is processed -/
  delay : Interval
  /-- Number of retries if initial processing fails -/
  retries : Int4
  /-- Initial backoff between retries -/
  retryBackoff : Interval
  channelName : String
  channelArgs : String
  /-- Interval for two-phase commit (or NULL to disable two-phase commit) -/
  commitInterval : Option Interval
  /-- Whether this message should be processed in order with respect to
  other ordered messages. -/
  ordered : Bool
  name : String
  payloadJson : Option String
  payloadBytes : Option (List UInt8)
deriving DecidableEq

def MqNew.channel (m : MqNew) : Channel := ⟨m.channelName, m.channelArgs⟩

/-- A row of the small, frequently updated table of messages. -/
structure MqMsg where
  id : Uuid
  createdAt : Timestamp
  attemptAt : Option Timestamp
  attempts : Int4
  retryBackoff : Interval
  channelName : String
  channelArgs : String
  commitInterval : Option Interval
  afterMessageId : Option Uuid
deriving DecidableEq

namespace MqMsg

def channel (r : MqMsg) : Channel := ⟨r.channelName, r.channelArgs⟩

/-- Key of the unique index for ensuring strict message order. Rows without
a predecessor column value are not indexed against each other. -/
def orderKey (r : MqMsg) : Option (String × String × Uuid) :=
  r.afterMessageId.map fun a => (r.channelName, r.channelArgs, a)

/-- The columns that no UPDATE of the crate sets. -/
structure SameIdentity (r r' : MqMsg) : Prop where
  id : r'.id = r.id
  createdAt : r'.createdAt = r.createdAt
  channelName : r'.channelName = r.channelName
  channelArgs : r'.channelArgs = r.channelArgs
  afterMessageId : r'.afterMessageId = r.afterMessageId

theorem SameIdentity.refl (r : MqMsg) : SameIdentity r r := ⟨rfl, rfl, rfl, rfl, rfl⟩

theorem SameIdentity.channel {r r' : MqMsg} (h : SameIdentity r r') : r'.channel = r.channel := by
  simp [MqMsg.channel, h.channelName, h.channelArgs]

theorem SameIdentity.orderKey {r r' : MqMsg} (h : SameIdentity r r') :
    r'.orderKey = r.orderKey := by
  simp [MqMsg.orderKey, h.channelName, h.channelArgs, h.afterMessageId]

end MqMsg

/-- A row of the large, less frequently updated table of message payloads. -/
structure MqPayload where
  id : Uuid
  name : String
  payloadJson : Option String
  payloadBytes : Option (List UInt8)
deriving DecidableEq

/-- Check that a UUID is neither NULL nor NIL. -/
def mqUuidExists : Option Uuid → Bool
  | none => false
  | some id => id ≠ uuidNil

@[simp] theorem mqUuidExists_none : mqUuidExists none = false := rfl

theorem mqUuidExists_eq_false_iff {a : Option Uuid} :
    mqUuidExists a = false ↔ a = none ∨ a = some uuidNil := by
  cases a <;> simp [mqUuidExists]

/-- The foreign key on `after_message_id`, for one row against the stored
identifiers. -/
def AfterExists (ids : List Uuid) (r : MqMsg) : Prop :=
  ∀ a ∈ r.afterMessageId, a ∈ ids

instance (ids : List Uuid) (r : MqMsg) : Decidable (AfterExists ids r) :=
  match h : r.afterMessageId with
  | none => isTrue (by simp [AfterExists, h])
  | some a => decidable_of_iff (a ∈ ids) (by simp [AfterExists, h])

/-- A committed database state, with every constraint of the schema. -/
@[ext] structure Store where
  msgs : List MqMsg
  payloads : List MqPayload
  msgsPkey : (msgs.map MqMsg.id).Nodup
  payloadsPkey : (payloads.map MqPayload.id).Nodup
  afterIdx : UniqueOn MqMsg.orderKey msgs
  afterFkey : ∀ r ∈ msgs, AfterExists (msgs.map MqMsg.id) r

namespace Store

def ids (s : Store) : List Uuid := s.msgs.map MqMsg.id

/-- The row of a message. -/
def row (s : Store) (id : Uuid) : Option MqMsg := lookup MqMsg.id s.msgs id

/-- The payload of a message. -/
def payload (s : Store) (id : Uuid) : Option MqPayload := lookup MqPayload.id s.payloads id

theorem row_eq_some_iff {s : Store} {id : Uuid} {r : MqMsg} :
    s.row id = some r ↔ r ∈ s.msgs ∧ r.id = id :=
  lookup_eq_some_iff s.msgsPkey

theorem row_eq_none_iff {s : Store} {id : Uuid} : s.row id = none ↔ id ∉ s.ids := by
  simp [row, lookup_eq_none_iff, ids]

theorem row_isSome_iff {s : Store} {id : Uuid} : (s.row id).isSome ↔ id ∈ s.ids :=
  lookup_isSome_iff

theorem row_of_mem {s : Store} {r : MqMsg} (h : r ∈ s.msgs) : s.row r.id = some r :=
  row_eq_some_iff.mpr ⟨h, rfl⟩

theorem mem_ids_of_mem {s : Store} {r : MqMsg} (h : r ∈ s.msgs) : r.id ∈ s.ids :=
  List.mem_map_of_mem h

/-- Rewrite rows without touching identities or links. -/
def mapMsgs (s : Store) (f : MqMsg → MqMsg) (hf : ∀ r, MqMsg.SameIdentity r (f r)) : Store :=
  have hIds : (s.msgs.map f).map MqMsg.id = s.msgs.map MqMsg.id := by
    simp [Function.comp_def, (hf _).id]
  have hKeys : (s.msgs.map f).filterMap MqMsg.orderKey = s.msgs.filterMap MqMsg.orderKey := by
    simp [List.filterMap_map, (hf _).orderKey]
  { msgs := s.msgs.map f
    payloads := s.payloads
    msgsPkey := hIds ▸ s.msgsPkey
    payloadsPkey := s.payloadsPkey
    afterIdx := by
      unfold UniqueOn
      rw [hKeys]
      exact s.afterIdx
    afterFkey := by
      intro r' hr' a ha
      obtain ⟨r, hr, rfl⟩ := List.mem_map.mp hr'
      rw [hIds]
      exact s.afterFkey r hr a ((hf r).afterMessageId ▸ ha) }

section MapMsgs

variable (s : Store) (f : MqMsg → MqMsg) (hf : ∀ r, MqMsg.SameIdentity r (f r))

theorem mapMsgs_row (id : Uuid) : (s.mapMsgs f hf).row id = (s.row id).map f :=
  lookup_map f fun r => (hf r).id

end MapMsgs

/-- Rewrite payloads without touching their identifiers. -/
def mapPayloads (s : Store) (f : MqPayload → MqPayload) (hf : ∀ p, (f p).id = p.id) : Store :=
  { s with
    payloads := s.payloads.map f
    payloadsPkey := by
      have hIds : (s.payloads.map f).map MqPayload.id = s.payloads.map MqPayload.id := by
        simp [Function.comp_def, hf]
      exact hIds ▸ s.payloadsPkey }

/-- The store after all migrations: the dummy message that makes the nil
UUID referenceable, with the column defaults of the moment it was inserted. -/
def initial (migratedAt : Timestamp) : Store where
  msgs := [{ id := uuidNil
             createdAt := migratedAt
             attemptAt := some migratedAt
             attempts := ⟨5, by decide, by decide⟩
             retryBackoff := second
             channelName := ""
             channelArgs := ""
             commitInterval := none
             afterMessageId := none }]
  payloads := []
  msgsPkey := by simp
  payloadsPkey := by simp
  afterIdx := by simp [UniqueOn, List.filterMap_cons, MqMsg.orderKey]
  afterFkey := by simp [AfterExists]

end Store

/-- The cast of a text to `JSONB`, as the text the value is read back as.
There is none for a text that is not JSON. -/
class JsonbCast where
  cast : String → Option String

/-- A cast that knows a single JSON text. -/
@[reducible] def JsonbCast.nullOnly : JsonbCast where
  cast text := if text = "null" then some text else none

/-- Notification channel names are at most 63 bytes long. -/
def NotifyAccepts (channel : String) : Prop := channel ≠ "" ∧ channel.utf8ByteSize < 64

instance (channel : String) : Decidable (NotifyAccepts channel) :=
  inferInstanceAs (Decidable (_ ∧ _))

/-- The notifications for a group of channel names: one for each, and one on
`mq` when there is any. -/
def pgNotify (channelNames : List String) : Except DbError (List String) :=
  if ∀ name ∈ channelNames, NotifyAccepts ("mq_" ++ name) then
    .ok (channelNames.map ("mq_" ++ ·) ++ if channelNames = [] then [] else ["mq"])
  else .error .invalidParameterValue

theorem pgNotify_eq_ok_iff {channelNames notes : List String} :
    pgNotify channelNames = .ok notes ↔
      (∀ name ∈ channelNames, NotifyAccepts ("mq_" ++ name)) ∧
        notes = channelNames.map ("mq_" ++ ·) ++ if channelNames = [] then [] else ["mq"] := by
  unfold pgNotify
  split <;> simp_all [eq_comm]

theorem mq_append_ne (name : String) : "mq_" ++ name ≠ "mq" := by
  intro hEq
  have hLength := congrArg String.length hEq
  rw [String.length_append] at hLength
  have hPrefix : "mq_".length = 3 := by decide
  have hAll : "mq".length = 2 := by decide
  omega

/-- A listener of a channel name hears of exactly that name. -/
theorem mem_pgNotify_iff {channelNames notes : List String}
    (h : pgNotify channelNames = .ok notes) (name : String) :
    "mq_" ++ name ∈ notes ↔ name ∈ channelNames := by
  rw [(pgNotify_eq_ok_iff.mp h).2, List.mem_append]
  have hAll : "mq_" ++ name ∉ if channelNames = [] then [] else ["mq"] := by
    split <;> simp [mq_append_ne]
  simp [hAll]

/-- A listener of all channels hears of every notification. -/
theorem mq_mem_pgNotify {channelNames notes : List String} (h : pgNotify channelNames = .ok notes)
    {name : String} (hName : name ∈ channelNames) : "mq" ∈ notes := by
  rw [(pgNotify_eq_ok_iff.mp h).2, if_neg (List.ne_nil_of_mem hName)]
  simp

end Sqlxmq
