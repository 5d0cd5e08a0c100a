import NoiseGate.Json.Printer
import NoiseGate.Json.Record

/-!
# Initialization options

The options that a server is given when it is initialized, and how to launch it. Both are records
with defaults. The options have names with underscores where they are configured, and names with
inner capitals where they are sent.
-/

namespace NoiseGate

open Json

structure Options where
  enabled : Bool
  logSeverity : Text
  logFile : Text
  longActionTimeout : Nat
  maxCodeActionResults : Nat
  showImplicits : Bool
  showMachineNames : Bool
  fullNamespace : Bool
  briefCompletions : Bool
  deriving DecidableEq

namespace Options

def default : Options where
  enabled := true
  logSeverity := "debug".toList
  logFile := "stderr".toList
  longActionTimeout := 5000
  maxCodeActionResults := 5
  showImplicits := false
  showMachineNames := false
  fullNamespace := false
  briefCompletions := false

/-- The names under which the options are configured, in the order of the record. -/
def names : List String :=
  ["enabled", "log_severity", "log_file", "long_action_timeout", "max_code_action_results",
    "show_implicits", "show_machine_names", "full_namespace", "brief_completions"]

def timeoutMax : Nat := UInt64.size - 1

def resultsMax : Nat := UInt32.size - 1

/-- The options with the given fields, which stand in the order of `names`. -/
def ofFields? {α : Type} (r : NodeReader α) : List (Option α) → Option Options
  | [enabled, severity, file, timeout, results, implicits, machine, full, brief] => do
    return {
      enabled := ← orDefault default.enabled r.bool? enabled
      logSeverity := ← orDefault default.logSeverity r.text? severity
      logFile := ← orDefault default.logFile r.text? file
      longActionTimeout := ← orDefault default.longActionTimeout (r.count? timeoutMax) timeout
      maxCodeActionResults := ← orDefault default.maxCodeActionResults (r.count? resultsMax) results
      showImplicits := ← orDefault default.showImplicits r.bool? implicits
      showMachineNames := ← orDefault default.showMachineNames r.bool? machine
      fullNamespace := ← orDefault default.fullNamespace r.bool? full
      briefCompletions := ← orDefault default.briefCompletions r.bool? brief }
  | _ => none

def parse? (text : Bytes) : Option Options := do
  ofFields? Tree.reader (← (← Tree.parse? text).fields? names)

def count (n : Nat) : Value := .number (.integer n)

/-- The object that is sent. Nothing is sent if the options are not enabled. -/
def toValue? (o : Options) : Option Value :=
  if o.enabled then
    some (.object (orderMembers
      [("logSeverity".toList, .string o.logSeverity), ("logFile".toList, .string o.logFile),
        ("longActionTimeout".toList, count o.longActionTimeout),
        ("maxCodeActionResults".toList, count o.maxCodeActionResults),
        ("showImplicits".toList, .bool o.showImplicits),
        ("showMachineNames".toList, .bool o.showMachineNames),
        ("fullNamespace".toList, .bool o.fullNamespace),
        ("briefCompletions".toList, .bool o.briefCompletions)]))
  else none

end Options

/-- How to launch a server. -/
structure Launch where
  command : Text
  args : List Text
  /-- The directory to launch it in, if not the gate's own. -/
  dir : Option Text
  deriving DecidableEq

namespace Launch

def ofTree? (t : Tree) : Option Launch := do
  match ← t.fields? ["command", "args", "cwd"] with
  | [some command, args, dir] =>
    return ⟨← command.text?, ← orDefault [] Tree.texts? args,
      ← orDefault none (Tree.nullable? Tree.text?) dir⟩
  | _ => none

def parse? (text : Bytes) : Option Launch := (Tree.parse? text).bind ofTree?

end Launch

end NoiseGate
