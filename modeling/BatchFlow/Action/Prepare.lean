import BatchFlow.Json.Record

/-!
# Prepare blocks

Paths to delete and directories to create before a job starts.
-/

namespace BatchFlow

structure Prepare where
  deletes : List String := []
  mkdirs : List String := []
  deriving DecidableEq, Inhabited

namespace Prepare

def withDelete (p : Prepare) (path : String) : Prepare :=
  { p with deletes := p.deletes ++ [path] }

def withMkdir (p : Prepare) (path : String) : Prepare :=
  { p with mkdirs := p.mkdirs ++ [path] }

open Json in
def toJson (p : Prepare) : Json :=
  obj [("deletes", ofTexts p.deletes), ("mkdirs", ofTexts p.mkdirs)]

end Prepare
end BatchFlow
