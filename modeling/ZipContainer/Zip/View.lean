import ZipContainer.Zip.Decode

/-!
# Views of archives

All that an archive says about its members, directories among them, together with their contents.
-/

namespace ZipContainer.Zip

/-- What a view shows of one member. -/
structure MemberView where
  record : Record
  /-- The local header agrees with the directory. -/
  localAgrees : Bool
  content : ByteArray

/-- What a view shows of an archive. -/
structure View where
  comment : ByteArray
  members : List MemberView

/-- The local header at the offset of a record states the same version, flags, method, checksum
and sizes. -/
def localAgrees (data : ByteArray) (r : Record) : Bool :=
  let field (off w : Nat) : Nat := fieldAt data (r.offset.toNat + off) w
  field 4 1 = r.needs && field 6 2 = r.flags && field 8 2 = r.method &&
    field 14 4 = r.crc.toNat && field 18 4 = r.compressedSize && field 22 4 = r.size

/-- The view of an archive. -/
def view [Zstandard.Decoder] (data : ByteArray) : Except Failure View := do
  let d ← readDirectory data
  let members ← d.records.mapM fun (r, bound) => do
    let content ← readMember data none r bound
    return ⟨r, localAgrees data r, content⟩
  return ⟨d.comment, members⟩

end ZipContainer.Zip
