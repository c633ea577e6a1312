import BatchFlow.Json.Record

/-!
# Settings of a translator

All settings have defaults, so any object can be read as settings.
-/

namespace BatchFlow

open Json

/-- The message of the kill element, unless set otherwise. -/
def defaultKillMessage : String :=
  "Action failed, error message[$\x7bwf:errorMessage(wf:lastErrorNode())\x7d]"

structure Settings where
  killMessage : String := defaultKillMessage
  deriving DecidableEq

namespace Settings

def withKillMessage (s : Settings) (message : String) : Settings :=
  { s with killMessage := message }

def keys : List String := ["kill-message"]

instance : Form Settings where
  toJson s := obj [("kill-message", str s.killMessage)]
  ofJson? j := do
    let given ← fields? keys false j
    return { killMessage := ← defaulted "kill-message" asText? defaultKillMessage given }
  keeps := keys.contains

end Settings
end BatchFlow
