import Simian.Eval
import Simian.Json.Reader
import Simian.Parser
import Simian.Tree.Codec

/-!
# Faults

What ends an operation without an answer: a source or a stored tree that cannot be read, and an
evaluation that meets something without a meaning. Run-time errors of a program are values and
none of these.
-/

namespace Simian

set_option autoImplicit false

inductive FileFault where
  /-- A directory where a file belongs. -/
  | directory
  /-- A path beyond the lengths that a file system takes. -/
  | nameTooLong
  deriving DecidableEq, Repr

inductive Fault where
  | source (fault : SourceFault)
  | json (fault : JsonFault)
  | decode (fault : DecodeFault)
  | eval (fault : EvalFault)
  | file (fault : FileFault)
  /-- A run-time value, which has no stored form. -/
  | notStorable (type : ValueType)

/-- The most characters of a quotation that the refusal of a numeral shows. -/
def Text.quotationLimit : Nat := 200

def Text.NumeralFault.message : Text.NumeralFault → String
  | .tooLong count =>
    "Exceeds the limit (" ++ toString Text.digitLimit ++ " digits) for integer string conversion: "
      ++ "value has " ++ toString count
      ++ " digits; use sys.set_int_max_str_digits() to increase the limit"
  | .notNumeral literal =>
    "invalid literal for int() with base 10: "
      ++ String.ofList ((Text.quoted literal).toList.take Text.quotationLimit)

def Stop.message : Stop → String
  | .abandoned => "abandoned"
  | .numeral fault => fault.message
  | .exhausted => "exhausted"

def SourceFault.message : SourceFault → String
  | .stopped stop => stop.message
  | .errors es => "; ".intercalate (es.map SyntaxError.message)

def JsonFault.message : JsonFault → String
  | .malformed => "malformed"
  | .numeral fault => fault.message

def FileFault.message : FileFault → String
  | .directory => "is a directory"
  | .nameTooLong => "file name too long"

def Fault.message : Fault → String
  | source fault => fault.message
  | json fault => fault.message
  | decode fault => fault.message
  | eval fault => fault.message
  | file fault => fault.message
  | notStorable t => "Unsupported AST node for serialization: " ++ t.className

/-- The tree stored in a JSON text. -/
def Tree.read (text : String) : Except Fault Tree :=
  match Json.read text with
  | .error fault => .error (.json fault)
  | .ok j =>
    match Tree.ofJson j with
    | .error fault => .error (.decode fault)
    | .ok t => .ok t

end Simian
