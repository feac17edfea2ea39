import Federation.Fault
import Federation.Json.Parser
import Federation.Json.Printer
import Federation.Json.Reading

/-!
# Documents

States, audits and configurations are kept as documents. A text that does not denote the data asked
for is malformed, whatever the reason; a file that is missing or holds no text cannot be read.
-/

set_option autoImplicit false

namespace Federation.Document

open Json

def read {α : Type} (ofValue? : Value → Option α) (text : String) : Except Fault α :=
  match (Value.parse? text).bind ofValue? with
  | some a => .ok a
  | none => .error .malformedDocument

def textOfFile (bytes : Option ByteArray) : Except Fault String :=
  match bytes.bind String.fromUTF8? with
  | some text => .ok text
  | none => .error .unreadableFile

end Federation.Document
