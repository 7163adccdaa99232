import Mathlib.Data.Int.Notation

/-! Errors of database statements, and the crate's rule for retrying them. -/
namespace Sqlxmq

/-- What the driver reports of a failed statement. -/
structure DbError where
  code : String
  constraint : Option String
deriving DecidableEq, Repr

namespace DbError

def uniqueViolation (constraint : String) : DbError := ⟨"23505", some constraint⟩

def foreignKeyViolation (constraint : String) : DbError := ⟨"23503", some constraint⟩

/-- `INT` arithmetic outside of 32 bits. -/
def numericValueOutOfRange : DbError := ⟨"22003", none⟩

/-- A timestamp or an interval that its type cannot hold. -/
def datetimeFieldOverflow : DbError := ⟨"22008", none⟩

/-- A text that is not JSON, cast to `JSONB`. -/
def invalidTextRepresentation : DbError := ⟨"22P02", none⟩

/-- A notification channel name that is too long. -/
def invalidParameterValue : DbError := ⟨"22023", none⟩

/-- A negative `LIMIT`. -/
def invalidRowCountInLimitClause : DbError := ⟨"2201W", none⟩

end DbError

/-- Names PostgreSQL gives to the constraints of the schema. -/
def mqMsgsPkey : String := "mq_msgs_pkey"

def mqPayloadsPkey : String := "mq_payloads_pkey"

def mqMsgsAfterMessageIdFkey : String := "mq_msgs_after_message_id_fkey"

def mqMsgsAfterMessageIdIdx : String := "mq_msgs_channel_name_channel_args_after_message_id_idx"

/-- `sqlx::Error`, as far as `should_retry` looks at it. -/
inductive SqlxError where
  | database (error : DbError)
  | other
deriving DecidableEq, Repr

/-- Helper to determine if a particular error condition is retryable. -/
def shouldRetry : SqlxError → Bool
  | .database error =>
      match error.code, error.constraint with
      -- Foreign key constraint violation on ordered channel
      | "23503", some "mq_msgs_after_message_id_fkey" => true
      -- Unique constraint violation on ordered channel
      | "23505", some "mq_msgs_channel_name_channel_args_after_message_id_idx" => true
      -- Serialization failure
      | "40001", _ => true
      -- Deadlock detected
      | "40P01", _ => true
      | _, _ => false
  | .other => false

/-- Of all constraint violations in the schema, exactly those of the two
constraints on `after_message_id` are retryable. -/
theorem shouldRetry_uniqueViolation (constraint : String) :
    shouldRetry (.database (.uniqueViolation constraint)) =
      decide (constraint = mqMsgsAfterMessageIdIdx) := by
  simp only [shouldRetry, DbError.uniqueViolation, mqMsgsAfterMessageIdIdx]
  split <;> simp_all

theorem shouldRetry_foreignKeyViolation (constraint : String) :
    shouldRetry (.database (.foreignKeyViolation constraint)) =
      decide (constraint = mqMsgsAfterMessageIdFkey) := by
  simp only [shouldRetry, DbError.foreignKeyViolation, mqMsgsAfterMessageIdFkey]
  split <;> simp_all

end Sqlxmq
