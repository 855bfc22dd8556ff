import ThreeXhaust.Lib.Except
import ThreeXhaust.Semantic.Contract

/-!
# The documents and files of a patch

What a patch is about: the disclosed documents, the files of the project, and the check of a target's
path (`coding-runtime-patch-apply.ts`).
-/

namespace ThreeXhaust.Patch

open Json Semantic

structure ProjectDocument where
  id : String
  relativePath : String
  content : String
  sha256 : String
  virtual : Bool
deriving DecidableEq

structure ProjectFile where
  content : String
  links : Nat
deriving DecidableEq

/-- The files under the project root, by relative path. -/
abbrev Files := String → Option ProjectFile

/-- `documents.get(id)`: of two documents with one id the map holds the later. -/
def documentOf (documents : List ProjectDocument) (id : String) : Option ProjectDocument :=
  documents.reverse.find? (·.id = id)

def basename (path : String) : String := (path.splitOn "/").getLastD ""

def displayName (document : ProjectDocument) : String :=
  let name := basename document.relativePath
  let id := document.id
  s!"{name} ({id})"

section Boundary

-- what `verifyPatchPath` finds wrong with the directories and links on the way to a path
variable (boundary : String → Except String Unit)

/-- `verifyPatchPath`: whether the target is there. -/
def verifyPatchPath (files : Files) (relativePath : String) : Except String Bool := do
  boundary relativePath
  match files relativePath with
  | none => .ok false
  | some file =>
    if file.links ≠ 1 then .error s!"Patch target has multiple links: {relativePath}"
    else .ok true

end Boundary

end ThreeXhaust.Patch
