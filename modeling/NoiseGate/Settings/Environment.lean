import NoiseGate.Bytes

/-!
# Environments

An environment is a list of entries, each a name and a value with an equals sign between them. A
name that is looked up may itself hold equals signs: it is found if it and one more equals sign
begin an entry.
-/

namespace NoiseGate

structure Environment where
  bindings : List (Text × Text)
  /-- The home directory of the account, which counts if no variable names one. -/
  accountHome : Option Text

namespace Environment

def entry (name value : Text) : Text := name ++ '=' :: value

/-- The rest of a text behind a prefix. -/
def after? : Text → Text → Option Text
  | [], text => some text
  | _ :: _, [] => none
  | c :: start, d :: text => if c = d then after? start text else none

/-- The value under a name, from the first entry that has one. -/
def get? (e : Environment) (name : Text) : Option Text :=
  e.bindings.findSome? fun (other, value) => after? (entry name []) (entry other value)

/-- The home directory. An empty variable does not name one. -/
def home? (e : Environment) : Option Text :=
  match e.get? "HOME".toList with
  | none | some [] => e.accountHome
  | some home => some home

end Environment

end NoiseGate
