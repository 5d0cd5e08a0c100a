import NoiseGate.Json.Printer
import NoiseGate.Json.Record

/-!
# Message bodies

The gate passes bodies on unread, with three exceptions: it looks for the method, it adds
initialization options to a request to initialize that has none, and it sends the notice to exit.
-/

namespace NoiseGate.Rpc

open Json

/-- The notice that tells a server to exit. -/
def exitBody : Bytes :=
  123 :: printText "jsonrpc".toList ++ 58 :: printText "2.0".toList ++ 44 ::
    printText "method".toList ++ 58 :: printText "exit".toList ++ [125]

/-- The method of a body, if the body has the syntax of JSON and names one. -/
def method? (body : Bytes) : Option Text := do
  match ← (← Tree.parse? body).fields? ["method"] with
  | [some t] => t.text?
  | _ => none

/-- Gives a member of an object a new value. -/
def setMember (name : String) (v : Value) : Value → Value
  | .object members => .object (insertMember name.toList v members)
  | other => other

/-- A request to initialize whose parameters leave the options open, with the options added. -/
def withOptions? (options : Value) (request : Value) : Option Value :=
  match request.member? "method".toList, request.member? "params".toList with
  | some (.string method), some (.object params) =>
    if method = "initialize".toList then
      match params.lookup "initializationOptions".toList with
      | none | some .null =>
        some (setMember "params" (setMember "initializationOptions" options (.object params))
          request)
      | some _ => none
    else none
  | _, _ => none

/-- The body that is sent instead of a request to initialize without options. -/
def inject? (options : Value) (body : Bytes) : Option Bytes := do
  return (← withOptions? options (← Value.parse? body)).print

end NoiseGate.Rpc
