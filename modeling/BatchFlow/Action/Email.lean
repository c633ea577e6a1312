import BatchFlow.Action.ListEdit
import BatchFlow.Json.Record
import BatchFlow.WriteOnce

/-!
# Email actions

An email has three lists of addresses and four texts. In a draft the lists are open and each of
the texts may be written once.
-/

namespace BatchFlow

/-- An email to send. -/
structure Email where
  recipients : List String := []
  cc : List String := []
  bcc : List String := []
  subject : Option String := none
  body : Option String := none
  contentType : Option String := none
  attachment : Option String := none
  deriving DecidableEq, Inhabited

namespace Email

/-- All settings, the absent ones as null. -/
def toJson (a : Email) : Json :=
  .obj [("to", .ofTexts a.recipients), ("cc", .ofTexts a.cc), ("bcc", .ofTexts a.bcc),
    ("subject", .ofOption .str a.subject), ("body", .ofOption .str a.body),
    ("content-type", .ofOption .str a.contentType),
    ("attachment", .ofOption .str a.attachment)]

structure Draft where
  recipients : List String := []
  cc : List String := []
  bcc : List String := []
  subject : WriteOnce String := {}
  body : WriteOnce String := {}
  contentType : WriteOnce String := {}
  attachment : WriteOnce String := {}
  deriving DecidableEq

inductive Edit where
  | recipients (edit : ListEdit String)
  | cc (edit : ListEdit String)
  | bcc (edit : ListEdit String)
  | subject (text : String)
  | body (text : String)
  | contentType (text : String)
  | attachment (path : String)
  deriving DecidableEq

namespace Draft

/-- A draft that starts from existing settings, with every text open to one change. -/
def ofSettings (a : Email) : Draft where
  recipients := a.recipients
  cc := a.cc
  bcc := a.bcc
  subject := .ofOption a.subject
  body := .ofOption a.body
  contentType := .ofOption a.contentType
  attachment := .ofOption a.attachment

def apply (d : Draft) : Edit → Except BuildError Draft
  | .recipients e => return { d with recipients := e.apply d.recipients }
  | .cc e => return { d with cc := e.apply d.cc }
  | .bcc e => return { d with bcc := e.apply d.bcc }
  | .subject text => return { d with subject := ← d.subject.set "subject" text }
  | .body text => return { d with body := ← d.body.set "body" text }
  | .contentType text => return { d with contentType := ← d.contentType.set "content type" text }
  | .attachment path => return { d with attachment := ← d.attachment.set "attachment" path }

def settings (d : Draft) : Email where
  recipients := d.recipients
  cc := d.cc
  bcc := d.bcc
  subject := d.subject.value
  body := d.body.value
  contentType := d.contentType.value
  attachment := d.attachment.value

end Draft
end Email
end BatchFlow
