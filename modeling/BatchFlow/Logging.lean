/-!
# Logging

How much is logged and in which form. The settings are a value; putting them to use is left to the
program that logs.
-/

namespace BatchFlow

inductive LogLevel where
  | trace
  | debug
  | info
  | warn
  | error
  deriving DecidableEq

namespace LogLevel

def all : List LogLevel := [trace, debug, info, warn, error]

def name : LogLevel → String
  | trace => "TRACE"
  | debug => "DEBUG"
  | info => "INFO"
  | warn => "WARN"
  | error => "ERROR"

def ofName? (text : String) : Option LogLevel := all.find? fun l => l.name == text

end LogLevel

inductive LogFormat where
  /-- For people, with colors. -/
  | pretty
  /-- One line to an event. -/
  | compact
  /-- For programs that collect logs. -/
  | json
  deriving DecidableEq

namespace LogFormat

def all : List LogFormat := [pretty, compact, json]

def name : LogFormat → String
  | pretty => "Pretty"
  | compact => "Compact"
  | json => "Json"

def ofName? (text : String) : Option LogFormat := all.find? fun f => f.name == text

end LogFormat

structure LogSetup where
  level : LogLevel := .info
  format : LogFormat := .pretty
  /-- Levels for single targets, which go before the level. -/
  filter : Option String := none
  /-- Whether entering and leaving a span is logged. -/
  spanEvents : Bool := false
  /-- Whether colors are used, where the format has any. -/
  colors : Bool := true
  deriving DecidableEq

namespace LogSetup

inductive Edit where
  | level (level : LogLevel)
  | format (format : LogFormat)
  | filter (text : String)
  | spanEvents (flag : Bool)
  | colors (flag : Bool)

def apply (s : LogSetup) : Edit → LogSetup
  | .level level => { s with level }
  | .format format => { s with format }
  | .filter text => { s with filter := some text }
  | .spanEvents flag => { s with spanEvents := flag }
  | .colors flag => { s with colors := flag }

end LogSetup
end BatchFlow
