import Mathlib.Data.Nat.Notation

/-! # RC, the result codes of the observer

The codes that the modelled functions name; every other code is `other`. -/
namespace ResultCode

inductive RC where
  | success
  | invalidArgument
  | unimplemented
  | internal
  | recordEof
  | ioerrWrite
  | other (code : ℕ)
  deriving DecidableEq, Repr

namespace RC

def code : RC → ℕ
  | success => 0
  | invalidArgument => 1
  | unimplemented => 2
  | internal => 4
  | recordEof => 19
  | ioerrWrite => 33
  | other code => code

def notfound : RC := other 6

def schemaDbNotExist : RC := other 23

def ioerrRead : RC := other 32

def ioerrClose : RC := other 36

def ioerrTooLong : RC := other 38

def names : List String :=
  ["SUCCESS", "INVALID_ARGUMENT", "UNIMPLEMENTED", "SQL_SYNTAX", "INTERNAL", "NOMEM", "NOTFOUND",
    "EMPTY", "FULL", "EXIST", "NOT_EXIST", "BUFFERPOOL_OPEN", "BUFFERPOOL_NOBUF",
    "BUFFERPOOL_INVALID_PAGE_NUM", "RECORD_OPENNED", "RECORD_INVALID_RID", "RECORD_INVALID_KEY",
    "RECORD_DUPLICATE_KEY", "RECORD_NOMEM", "RECORD_EOF", "RECORD_NOT_EXIST", "RECORD_INVISIBLE",
    "SCHEMA_DB_EXIST", "SCHEMA_DB_NOT_EXIST", "SCHEMA_DB_NOT_OPENED", "SCHEMA_DB_IS_SYS",
    "SCHEMA_TABLE_NOT_EXIST", "SCHEMA_TABLE_EXIST", "SCHEMA_FIELD_NOT_EXIST",
    "SCHEMA_FIELD_MISSING", "SCHEMA_FIELD_TYPE_MISMATCH", "SCHEMA_INDEX_NAME_REPEAT", "IOERR_READ",
    "IOERR_WRITE", "IOERR_ACCESS", "IOERR_OPEN", "IOERR_CLOSE", "IOERR_SEEK", "IOERR_TOO_LONG",
    "IOERR_SYNC", "LOCKED_UNLOCK", "LOCKED_NEED_WAIT", "LOCKED_CONCURRENCY_CONFLICT", "FILE_EXIST",
    "FILE_NOT_EXIST", "FILE_NAME", "FILE_BOUND", "FILE_CREATE", "FILE_OPEN", "FILE_NOT_OPENED",
    "FILE_CLOSE", "FILE_REMOVE", "VARIABLE_NOT_EXISTS", "VARIABLE_NOT_VALID", "LOGBUF_FULL",
    "LOG_FILE_FULL", "LOG_ENTRY_INVALID", "JSON_PARSE_FAILED", "JSON_MEMBER_MISSING",
    "RANGE_ERROR", "WAL_INVALID_FILENAME", "INPUT_EOF", "INVALID_TOKEN",
    "UNEXPECTED_END_OF_STRING", "SYNTAX_ERROR", "UNSUPPORTED"]

def strrc (rc : RC) : String := names.getD rc.code "unknown"

end RC

end ResultCode
