import ZipContainer.Zip.Record

/-!
# What can be wrong with an archive

The causes for which a directory or a member cannot be read, and their wording.
-/

namespace ZipContainer.Zip

/-- Why a central directory cannot be read. -/
inductive DirectoryFault where
  /-- There is no end record. -/
  | noEndRecord
  | spansDisks
  /-- The directory would begin before the data. -/
  | badOffset
  | truncated
  | badMagic
  | name (fault : Text.Utf8.Fault)
  /-- An extra field reaches beyond the extra data. -/
  | extraOverrun (id size : Nat)
  /-- The 64-bit extra field lacks a number that it has to supply. -/
  | missingWideField (field : String)
  deriving DecidableEq, Repr

/-- The wording of a directory fault. -/
def DirectoryFault.message : DirectoryFault → String
  | .noEndRecord => "File is not a zip file"
  | .spansDisks => "zipfiles that span multiple disks are not supported"
  | .badOffset => "Bad offset for central directory"
  | .truncated => "Truncated central directory"
  | .badMagic => "Bad magic number for central directory"
  | .name f => f.message
  | .extraOverrun id size =>
    "Corrupt extra field " ++ String.ofList (Text.hexDigits 4 id) ++
      " (size=" ++ toString size ++ ")"
  | .missingWideField field => "Corrupt zip64 extra field. " ++ field ++ " not found."

/-- Why a member cannot be decoded although the directory is readable. -/
inductive MemberFault where
  /-- The local header begins before the data. -/
  | negativeOffset (offset : Int)
  | truncatedHeader
  | badMagic
  | name (fault : Text.Utf8.Fault)
  /-- The directory and the local header disagree about the stored name. -/
  | nameDiffers (inDirectory : Text) (inHeader : ByteArray)
  /-- The member reaches into the next one or into the directory. -/
  | overlaps (name : Text)
  /-- The data end within the member. -/
  | endOfData
  | checksum (name : Text)
  | deflate
  | bzip2
  | lzma
  | zstandard
  /-- The local header of a Zstandard member reaches beyond the data. -/
  | truncatedLocalHeader
  | badLocalSignature
  /-- The packed content of a Zstandard member reaches beyond the data. -/
  | truncatedContent
  | lengthMismatch
  | badChecksum
  /-- A fault in the words of whoever raised it. -/
  | custom (text : String)
  deriving DecidableEq

/-- The wording of a member fault. -/
def MemberFault.message : MemberFault → String
  | .negativeOffset n => "negative seek value " ++ toString n
  | .truncatedHeader => "Truncated file header"
  | .badMagic => "Bad magic number for file header"
  | .name f => f.message
  | .nameDiffers d h =>
    "File name in directory " ++ Text.quote d ++ " and header " ++ Text.quoteBytes h ++ " differ."
  | .overlaps n => "Overlapped entries: " ++ Text.quote n ++ " (possible zip bomb)"
  | .endOfData => ""
  | .checksum n => "Bad CRC-32 for file " ++ Text.quote n
  | .deflate => "[zlib.error]"
  | .bzip2 => "[bz2]"
  | .lzma => "[LZMAError]"
  | .zstandard => "zstd decompression failed: [ZstdError]"
  | .truncatedLocalHeader => "truncated local header"
  | .badLocalSignature => "bad local header signature"
  | .truncatedContent => "truncated entry data"
  | .lengthMismatch => "length mismatch after decompress"
  | .badChecksum => "bad CRC-32"
  | .custom text => text

/-- Why a member is packed in a way that cannot be read. -/
inductive Unsupported where
  | compressedPatch
  | strongEncryption
  | encrypted (record : Record)
  /-- An encrypted Zstandard member. -/
  | encryptedMember
  | method
  /-- A refusal in the words of whoever raised it. -/
  | custom (text : String)
  deriving DecidableEq

/-- The wording of a refusal. -/
def Unsupported.message : Unsupported → String
  | .compressedPatch => "compressed patched data (flag bit 5)"
  | .strongEncryption => "strong encryption (flag bit 6)"
  | .encrypted r =>
    "File " ++ r.describe ++ " is encrypted, password required for extraction"
  | .encryptedMember => "encrypted member"
  | .method => "That compression method is not supported"
  | .custom text => text

end ZipContainer.Zip
