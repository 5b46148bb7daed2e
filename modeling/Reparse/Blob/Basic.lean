import Reparse.Table.Fault
/-!
# Compiled grammars

The byte form of a table: a header with magic bytes, format version and reserved flags, then the parts
of the table in order. Integers are little-endian; a string is its length in bytes, then its UTF-8.
-/
namespace Reparse

/-- Why bytes are not a loadable grammar. -/
inductive LoadError where
  | invalidMagic
  | versionMismatch (found : UInt16)
  | unexpectedEof (offset : Nat)
  | invalidUtf8
  | malformed (fault : TableFault)
  deriving DecidableEq, Repr

namespace Blob

/-- The bytes `CNPY`. -/
def magic : List UInt8 := [0x43, 0x4E, 0x50, 0x59]

/-- The version that is written. -/
def formatVersion : UInt16 := 2

/-- The oldest version that is read. -/
def oldestVersion : UInt16 := 1

end Blob

namespace LoadError

def kind : LoadError → String
  | invalidMagic => "InvalidMagic"
  | versionMismatch _ => "GrammarVersionMismatch"
  | unexpectedEof _ => "UnexpectedEof"
  | invalidUtf8 => "InvalidUtf8"
  | malformed _ => "Malformed"

def message : LoadError → String
  | invalidMagic => "not a compiled grammar (bad magic bytes)"
  | versionMismatch found =>
    "grammar format version " ++ toString found.toNat ++ " is not supported (supported: "
      ++ toString Blob.oldestVersion.toNat ++ "..=" ++ toString Blob.formatVersion.toNat ++ ")"
  | unexpectedEof offset => "compiled grammar is truncated at byte " ++ toString offset
  | invalidUtf8 => "compiled grammar contains an invalid UTF-8 string"
  | malformed fault => "malformed grammar table: " ++ fault.message

end LoadError
end Reparse
