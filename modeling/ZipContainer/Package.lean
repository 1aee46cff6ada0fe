import ZipContainer.Archive
import ZipContainer.Draft

/-!
# Packages

A package is an archive with a main document and the files that it refers to. The main document
is stored first, under a fixed path; a reader that does not find it there takes the first entry
with the suffix of documents.
-/

namespace ZipContainer.Package

/-- The path of the main document, and the suffix of documents. -/
def documentPath : Text := "doc.kml"
@[inherit_doc documentPath] def documentSuffix : Text := ".kml"

/-- The data begin like a package. -/
def isPackage (data : ByteArray) : Bool := Zip.isArchive data

/-- The main document of an archive. -/
def document? (a : Archive) : Option ByteArray :=
  match a.get? documentPath with
  | some content => some content
  | none => (a.findSuffix? documentSuffix).map Entry.content

/-- Writes a package of a main document and further entries. At the first entry that is refused
the package is finished with those before it. A failure to finish it is reported rather than the
refusal. -/
def write (path : String) (document : Content)
    (resources : List (EntryPath.Argument × Content)) (format : Format) : Action Unit := do
  let draft ← Draft.create path format
  let (draft, refusal) := draft.addAll ((.text documentPath, document) :: resources)
  let (_, failure) ← draft.leave refusal
  match failure with
  | some f => throw f
  | none => return ()

end ZipContainer.Package
