import Sqlxmq.Database.Schema

/-! Building a job to send. -/
namespace Sqlxmq

/-- A non-negative length of time in microseconds, as it is sent to the
database. -/
abbrev Duration := Nat

/-- A cast to `i32` keeps the low 32 bits. -/
def Int4.ofBits (b : BitVec 32) : Int4 where
  val := b.toInt
  lower := BitVec.le_toInt b
  upper := BitVec.toInt_lt

/-- Type for building a job to send. -/
structure JobBuilder where
  id : Uuid
  delay : Duration
  channelName : String
  channelArgs : String
  retries : UInt32
  retryBackoff : Duration
  commitInterval : Option Duration
  ordered : Bool
  name : String
  payloadJson : Option String
  payloadBytes : Option (List UInt8)
deriving DecidableEq

namespace JobBuilder

/-- Prepare to send a job with the specified name and ID. -/
def newWithId (id : Uuid) (name : String) : JobBuilder where
  id
  delay := 0
  channelName := ""
  channelArgs := ""
  retries := 4
  retryBackoff := 1000000
  commitInterval := none
  ordered := false
  name
  payloadJson := none
  payloadBytes := none

/-- Prepare to send a job with the specified name, under the random ID. -/
def new (newV4 : Uuid) (name : String) : JobBuilder :=
  newWithId newV4 name

/-- A function that changes a builder and returns it, or panics. -/
abbrev BuildFn := JobBuilder → Option JobBuilder

def setProto (builder : JobBuilder) (proto : BuildFn) : Option JobBuilder :=
  proto builder

def setChannelName (builder : JobBuilder) (channelName : String) : JobBuilder :=
  { builder with channelName }

def setChannelArgs (builder : JobBuilder) (channelArgs : String) : JobBuilder :=
  { builder with channelArgs }

def setRetries (builder : JobBuilder) (retries : UInt32) : JobBuilder :=
  { builder with retries }

def setRetryBackoff (builder : JobBuilder) (retryBackoff : Duration) : JobBuilder :=
  { builder with retryBackoff }

def setCommitInterval (builder : JobBuilder) (commitInterval : Option Duration) : JobBuilder :=
  { builder with commitInterval }

def setOrdered (builder : JobBuilder) (ordered : Bool) : JobBuilder :=
  { builder with ordered }

def setDelay (builder : JobBuilder) (delay : Duration) : JobBuilder :=
  { builder with delay }

def setRawJson (builder : JobBuilder) (rawJson : String) : JobBuilder :=
  { builder with payloadJson := some rawJson }

def setRawBytes (builder : JobBuilder) (rawBytes : List UInt8) : JobBuilder :=
  { builder with payloadBytes := some rawBytes }

/-- `value` is what `serde_json::to_string` returns. -/
def setJson {ε : Type} (builder : JobBuilder) (value : Except ε String) : Except ε JobBuilder := do
  let text ← value
  .ok { builder with payloadJson := some text }

/-- The message that `spawn` passes to `mq_insert`. -/
def message (job : JobBuilder) : MqNew where
  id := job.id
  delay := job.delay
  retries := .ofBits job.retries.toBitVec
  retryBackoff := job.retryBackoff
  channelName := job.channelName
  channelArgs := job.channelArgs
  commitInterval := job.commitInterval.map fun d => (d : Interval)
  ordered := job.ordered
  name := job.name
  payloadJson := job.payloadJson
  payloadBytes := job.payloadBytes

/-- The message of an ordered job with default settings. -/
def orderedMessage (id : Uuid) (name : String) : MqNew :=
  { newWithId id name with ordered := true }.message

/-- The message of a job that has to be committed within a second. -/
def reservedMessage (id : Uuid) (name : String) : MqNew :=
  { newWithId id name with commitInterval := some 1000000 }.message

end JobBuilder

/-- A job that is inserted without retries. -/
def lastAttempt : MqNew := { JobBuilder.newWithId 1 "job" with retries := 0 }.message

/-- Type for a named job, here without the function that runs it. -/
structure NamedJob where
  name : String
  buildFn : JobBuilder.BuildFn

namespace NamedJob

def newInternal (name : String) (buildFn : JobBuilder.BuildFn) : NamedJob where
  name
  buildFn

/-- Initialize a job builder with the name and defaults of this job. -/
def builder (job : NamedJob) (newV4 : Uuid) : Option JobBuilder :=
  job.buildFn (.new newV4 job.name)

/-- The same, using the provided job ID. -/
def builderWithId (job : NamedJob) (id : Uuid) : Option JobBuilder :=
  job.buildFn (.newWithId id job.name)

end NamedJob

end Sqlxmq
