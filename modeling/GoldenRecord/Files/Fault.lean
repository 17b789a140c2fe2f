namespace GoldenRecord

/-- Why the file system refuses an operation. -/
inductive FileFault where
  | notFound
  | notADirectory
  | isADirectory
  | alreadyExists
  | busy
  | nameTooLong
  /-- A path with a zero character never reaches the file system. -/
  | nulInName
  | invalidArgument
  | notText
  | other (message : String)
deriving DecidableEq, Repr

namespace FileFault

def message : FileFault → String
  | .notFound => "No such file or directory (os error 2)"
  | .notADirectory => "Not a directory (os error 20)"
  | .isADirectory => "Is a directory (os error 21)"
  | .alreadyExists => "File exists (os error 17)"
  | .busy => "Device or resource busy (os error 16)"
  | .nameTooLong => "File name too long (os error 36)"
  | .nulInName => "file name contained an unexpected NUL byte"
  | .invalidArgument => "Invalid argument (os error 22)"
  | .notText => "stream did not contain valid UTF-8"
  | .other message => message

end FileFault

end GoldenRecord
