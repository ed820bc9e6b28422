import LazyModules.Number
import LazyModules.Text.Point
import LazyModules.Text.Quoted
import LazyModules.Text.Utf8

/-!
# Accidents

What can go wrong outside the program that is being run: files, the network, the snapshot, and limits of
the numbers. An accident is no fault of a source text; it ends the run and is told in one line.
-/
namespace LazyModules

/-- Why a file operation fails. -/
inductive FileFault where
  | missing
  | isFolder
  | notFolder
  | nameTooLong
  deriving DecidableEq, Repr

def FileFault.code : FileFault → Int
  | .missing => 2
  | .isFolder => 21
  | .notFolder => 20
  | .nameTooLong => 36

def FileFault.note : FileFault → String
  | .missing => "No such file or directory"
  | .isFolder => "Is a directory"
  | .notFolder => "Not a directory"
  | .nameTooLong => "File name too long"

inductive Accident where
  /-- the operating system refuses: a note alone -/
  | system (note : String)
  /-- the operating system refuses: its error number, a note, perhaps a path -/
  | refused (code : Int) (note : String) (path : Option String)
  /-- a path with U+0000 in it -/
  | nulInPath
  /-- a file that is no text -/
  | undecodable (f : Text.Utf8.Fault)
  /-- a key that is not in a table -/
  | unknownKey (key : String)
  /-- a document that cannot be read: what is wrong, where, and on which line and column -/
  | badDocument (problem : String) (line column offset : Nat)
  /-- an integer in a document with too many digits -/
  | longNumeral (count : Nat)
  /-- a snapshot that is some other document -/
  | notATable (path : String)
  /-- halves of surrogate pairs in what goes into a file -/
  | unencodable (run : Text.HalfRun)
  /-- a snapshot entry that is no text: an array or an object -/
  | notText
  /-- a snapshot entry that is no text and has no length: the name of its type -/
  | noLength (type : String)
  | unreachable (url : String)
  | httpStatus (status : Nat) (reason url : String)
  /-- an integer out of the range of doubles -/
  | tooLargeToConvert
  /-- a quotient of integers out of the range of doubles -/
  | quotientTooLarge
  /-- an integer with too many digits to write -/
  | tooManyDigits
  /-- an error that nobody knows how to report -/
  | unblamable
  /-- a division by zero that nobody caught -/
  | divisionByZero
  /-- trouble of a caller's own -/
  | custom (message : String)

namespace Accident

/-- A file operation that fails on a path. -/
def file (f : FileFault) (path : String) : Accident := .refused f.code f.note (some path)

/-- The class of an error number of the operating system. -/
def codeKind (code : Int) : String :=
  match code with
  | 1 => "PermissionError"
  | 2 => "FileNotFoundError"
  | 3 => "ProcessLookupError"
  | 4 => "InterruptedError"
  | 10 => "ChildProcessError"
  | 11 => "BlockingIOError"
  | 13 => "PermissionError"
  | 17 => "FileExistsError"
  | 20 => "NotADirectoryError"
  | 21 => "IsADirectoryError"
  | 32 => "BrokenPipeError"
  | 103 => "ConnectionAbortedError"
  | 104 => "ConnectionResetError"
  | 108 => "BrokenPipeError"
  | 110 => "TimeoutError"
  | 111 => "ConnectionRefusedError"
  | 114 => "BlockingIOError"
  | 115 => "BlockingIOError"
  | _ => "OSError"

/-- The class of an accident, which stands for it where it has no message. -/
def kind : Accident → String
  | .system _ => "OSError"
  | .refused code _ _ => codeKind code
  | .nulInPath => "ValueError"
  | .undecodable _ => "UnicodeDecodeError"
  | .unknownKey _ => "KeyError"
  | .badDocument _ _ _ _ => "JSONDecodeError"
  | .longNumeral _ => "ValueError"
  | .notATable _ => "ValueError"
  | .unencodable _ => "UnicodeEncodeError"
  | .notText => "TypeError"
  | .noLength _ => "TypeError"
  | .unreachable _ => "ConnectionError"
  | .httpStatus _ _ _ => "HTTPError"
  | .tooLargeToConvert => "OverflowError"
  | .quotientTooLarge => "OverflowError"
  | .tooManyDigits => "ValueError"
  | .unblamable => "NotImplementedError"
  | .divisionByZero => "ZeroDivisionError"
  | .custom _ => "RuntimeError"

def undecodableText (f : Text.Utf8.Fault) : String :=
  let reason := match f.reason with
    | .invalidStart => "invalid start byte"
    | .invalidContinuation => "invalid continuation byte"
    | .unexpectedEnd => "unexpected end of data"
  let place :=
    if f.width = 1 then
      "byte 0x" ++ String.ofList (Text.hexDigits 2 f.byte.toNat) ++ " in position " ++ toString f.start
    else "bytes in position " ++ toString f.start ++ "-" ++ toString (f.start + f.width - 1)
  "'utf-8' codec can't decode " ++ place ++ ": " ++ reason

def unencodableText (run : Text.HalfRun) : String :=
  let place :=
    if run.count = 1 then
      "character '\\u" ++ String.ofList (Text.hexDigits 4 (0xd800 + run.first)) ++ "' in position " ++
        toString run.start
    else "characters in position " ++ toString run.start ++ "-" ++ toString (run.start + run.count - 1)
  "'utf-8' codec can't encode " ++ place ++ ": surrogates not allowed"

def message : Accident → String
  | .system note => note
  | .refused code note path =>
    "[Errno " ++ toString code ++ "] " ++ note ++ (path.map fun p => ": " ++ Text.quoted p).getD ""
  | .nulInPath => "embedded null byte"
  | .undecodable f => undecodableText f
  | .unknownKey key => Text.quoted key
  | .badDocument problem line column offset =>
    problem ++ ": line " ++ toString line ++ " column " ++ toString column ++
      " (char " ++ toString offset ++ ")"
  | .longNumeral n =>
    "Exceeds the limit (4300 digits) for integer string conversion: value has " ++ toString n ++
      " digits; use sys.set_int_max_str_digits() to increase the limit"
  | .notATable path => "Cache file " ++ path ++ " does not hold a JSON object."
  | .unencodable run => unencodableText run
  | .notText => ""
  | .noLength type => "object of type '" ++ type ++ "' has no len()"
  | .unreachable url => "unreachable: " ++ url
  | .httpStatus status reason url =>
    let side := if status < 500 then " Client Error: " else " Server Error: "
    toString status ++ side ++ reason ++ " for url: " ++ url
  | .tooLargeToConvert => "int too large to convert to float"
  | .quotientTooLarge => "integer division result too large for a float"
  | .tooManyDigits =>
    "Exceeds the limit (4300 digits) for integer string conversion; " ++
      "use sys.set_int_max_str_digits() to increase the limit"
  | .unblamable => "<class 'nought.errors.SemanticError'>"
  | .divisionByZero => "division by zero"
  | .custom message => message

/-- The accident that a fault of arithmetic is when no operator is to blame. -/
def ofNumber : Number.Fault → Accident
  | .divisionByZero => .divisionByZero
  | .tooLargeToConvert => .tooLargeToConvert
  | .quotientTooLarge => .quotientTooLarge

end Accident

end LazyModules
