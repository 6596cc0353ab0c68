import RegisterLayout.Command.Options
import RegisterLayout.Placement.Record

/-!
# Log records

What the command reports about its work and about faults.  The verbosity decides which records
are shown, and whether a shown record tells its severity and its source.

Principal definitions: `LogRecord`, `LogRecord.text`, `logText`.
-/

namespace RegisterLayout

inductive Severity where
  | debug
  | info
  | warning
  | error
  deriving DecidableEq, Repr

def Severity.rank : Severity → Nat
  | debug => 0
  | info => 1
  | warning => 2
  | error => 3

def Severity.label : Severity → String
  | debug => "DEBUG"
  | info => "INFO"
  | warning => "WARNING"
  | error => "ERROR"

inductive LogRecord where
  | loading (path : String)
  | placed (record : PlacementRecord)
  | resolved (fullName : Text) (bytes : Int)
  | accepted (path : String) (fullName : Text) (bytes : Int)
  | drawn (fullName : Text) (cells lines : Nat) (bits : Int)
  | declared (fullName : Text) (members lines : Nat)
  | noSuchFile (path : String)
  | fault (path : String) (message : Text)
  | stopped
  deriving DecidableEq, Repr

namespace LogRecord

def severity : LogRecord → Severity
  | loading _ | placed _ | resolved .. | drawn .. | declared .. => .debug
  | accepted .. => .info
  | noSuchFile _ | fault .. | stopped => .error

/-- The part of the program that speaks. -/
def source : LogRecord → String
  | loading _ => "regdiag.loader"
  | placed _ | resolved .. => "regdiag.resolve"
  | drawn .. => "regdiag.diagram"
  | declared .. => "regdiag.accessors"
  | accepted .. | noSuchFile _ | fault .. | stopped => "regdiag.cli"

def text : LogRecord → Text
  | loading path => "loading model from " ++ path
  | placed r => r.fullName ++ ": " ++ r.kind ++ " at byte " ++ toString r.byteOffset ++ ", "
      ++ toString r.bits ++ " bits, align " ++ toString r.align
  | resolved fullName bytes => fullName ++ ": resolved, " ++ toString bytes ++ " bytes total"
  | accepted path fullName bytes =>
    path ++ ": " ++ fullName ++ " resolved, " ++ toString bytes ++ " bytes"
  | drawn fullName cells lines bits => fullName ++ ": " ++ toString cells ++ " cells, "
      ++ toString lines ++ " description lines, " ++ toString bits ++ " bits"
  | declared fullName members lines => fullName ++ ": " ++ toString members ++ " members, "
      ++ toString lines ++ " accessor lines"
  | noSuchFile path => path ++ ": no such file"
  | fault path message => path ++ ": " ++ message
  | stopped => "Exiting because there were errors"

end LogRecord

/-- The least severity that is shown. -/
def Verbosity.least : Verbosity → Severity
  | normal => .warning
  | verbose => .debug
  | quiet => .error

def Verbosity.shows (v : Verbosity) (r : LogRecord) : Bool := v.least.rank ≤ r.severity.rank

/-- A record as it is shown: its text alone where little is to be said. -/
def LogRecord.line (v : Verbosity) (r : LogRecord) : Text :=
  match v with
  | .quiet => r.text
  | _ => "[" ++ r.severity.label ++ "] " ++ r.source ++ ": " ++ r.text

/-- The log at a verbosity, a line for each record shown. -/
def logText (v : Verbosity) (records : List LogRecord) : Text :=
  Text.ofLines ((records.filter v.shows).map (·.line v))

end RegisterLayout
