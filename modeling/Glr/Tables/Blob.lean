import Glr.Tables.Payload
import Glr.Tables.Validate

/-!
# Language blobs

A blob carries tables between the generator and the parser: four magic bytes, a version, the length
of the payload, and the tables as JSON.  Both numbers are four bytes with the lowest first.  The
version is looked at before anything behind it, so a blob of another version is refused as such
even if its payload makes no sense.
-/

namespace Glr

/-- Why bytes are no usable blob, the version apart. -/
inductive BlobFault where
  | shorterThanHeader (size : Nat)
  | badMagic
  | lengthMismatch (actual declared : Nat)
  | malformedPayload
  | tables (fault : TableFault)
  deriving Repr, DecidableEq

/-- The fault in words. -/
def BlobFault.message : BlobFault → String
  | shorterThanHeader n => "blob is " ++ toString n ++ " bytes, shorter than its header"
  | badMagic => "bad magic number"
  | lengthMismatch actual declared =>
    "payload is " ++ toString actual ++ " bytes, header declares " ++ toString declared
  | malformedPayload => "malformed payload"
  | tables fault => fault.message

/-- A language that cannot be loaded. -/
inductive LoadError where
  | incompatibleVersion (found : Nat)
  | corruptBlob (fault : BlobFault)
  | invalidTokenPattern (name : String)
  | unknownLanguage (id : String)
  deriving Repr, DecidableEq

namespace Blob

/-- The first four bytes of every blob. -/
def magic : Text := Text.ofString "KELP"

/-- Bytes before the payload. -/
def headerSize : Nat := 12

/-- The version the generator writes. -/
def currentVersion : Nat := 14

/-- The oldest version that can be read. -/
def oldestVersion : Nat := 13

/-- A number in four bytes, the lowest first. -/
def word (n : Nat) : Text :=
  #[UInt8.ofNat n, UInt8.ofNat (n / 256), UInt8.ofNat (n / 65536), UInt8.ofNat (n / 16777216)]

/-- The number in the four bytes from an offset. -/
def wordAt (bytes : Text) (offset : Nat) : Nat :=
  let byte (i : Nat) : Nat := (bytes.getD (offset + i) 0).toNat
  byte 0 + 256 * byte 1 + 65536 * byte 2 + 16777216 * byte 3

/-- A blob of a payload, whatever that is, under a given magic and declared length. -/
def assemble (magic : Text) (version declared : Nat) (payload : Text) : Text :=
  magic ++ word version ++ word declared ++ payload

/-- The blob of tables under a version. -/
def encode (t : Tables) (version : Nat) : Text :=
  let payload := t.payload
  assemble magic version (Size.ofText payload) payload

/-- The version a blob claims to have. -/
def peekVersion (bytes : Text) : Except LoadError Nat :=
  if bytes.size < headerSize then .error (.corruptBlob (.shorterThanHeader bytes.size))
  else if bytes.extract 0 4 ≠ magic then .error (.corruptBlob .badMagic)
  else .ok (wordAt bytes 4)

/-- The version and the valid tables in a blob. -/
def decode (bytes : Text) : Except LoadError (Nat × Tables) := do
  let version ← peekVersion bytes
  if version < oldestVersion || currentVersion < version then
    throw (.incompatibleVersion version)
  let declared := wordAt bytes 8
  let payload := bytes.extract headerSize bytes.size
  if payload.size ≠ declared then
    throw (.corruptBlob (.lengthMismatch payload.size declared))
  match Tables.ofPayload? payload with
  | none => throw (.corruptBlob .malformedPayload)
  | some t =>
    match t.fault? with
    | some fault => throw (.corruptBlob (.tables fault))
    | none => return (version, t)

end Blob

namespace LoadError

/-- The error in words. -/
def message : LoadError → String
  | incompatibleVersion found =>
    "incompatible language version " ++ toString found ++ ", expected "
      ++ toString Blob.oldestVersion ++ "..=" ++ toString Blob.currentVersion
  | corruptBlob fault => "corrupt language blob: " ++ fault.message
  | invalidTokenPattern name => "invalid pattern for token `" ++ name ++ "`"
  | unknownLanguage id => "unknown language `" ++ id ++ "`"

/-- The code under which the error is reported. -/
def code : LoadError → String
  | incompatibleVersion _ => "kelp::load::incompatible_version"
  | corruptBlob _ => "kelp::load::corrupt_blob"
  | invalidTokenPattern _ => "kelp::load::invalid_pattern"
  | unknownLanguage _ => "kelp::load::unknown_language"

/-- Advice on what to do about it. -/
def help? : LoadError → Option String
  | incompatibleVersion _ =>
    some "regenerate the language with a matching version of the generator"
  | _ => none

end LoadError

end Glr
