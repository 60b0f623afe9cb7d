/-!
# Why a file cannot be used

The reasons for which reading or writing a file fails, with the words of the operating system where
it is the one that refuses.
-/

namespace ApiSurface

/-- Why a file cannot be read or written. -/
inductive FileFault where
  /-- Nothing stands at the path. -/
  | missing
  /-- Something that is no directory is used as one. -/
  | notDirectory
  /-- A directory is used as a file. -/
  | isDirectory
  /-- The contents are no text. -/
  | notText
  /-- The contents of an archive entry do not fit their checksum. -/
  | badChecksum
  /-- The contents of an archive entry cannot be unpacked. -/
  | badCompression
  /-- Any other reason. -/
  | other (message : String)
deriving DecidableEq, Repr

/-- The reason in words. -/
def FileFault.message : FileFault → String
  | missing => "No such file or directory (os error 2)"
  | notDirectory => "Not a directory (os error 20)"
  | isDirectory => "Is a directory (os error 21)"
  | notText => "stream did not contain valid UTF-8"
  | badChecksum => "Invalid checksum"
  | badCompression => "corrupt deflate stream"
  | other message => message

end ApiSurface
