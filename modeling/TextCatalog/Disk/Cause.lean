/-!
# Causes of disk failures

Why an operation on files did not happen, with the words that the system has for it.
-/

namespace TextCatalog.Disk

inductive Cause where
  | notFound
  | notADirectory
  | isADirectory
  | alreadyExists
  | directoryNotEmpty
  | busy
  | tooManyLinks
  | nameTooLong
  | permissionDenied
  | invalidArgument
  | nulInName
  | emptyPath
  | notText
  | other (message : String)
  deriving DecidableEq, Repr, Inhabited

namespace Cause

def message : Cause → String
  | notFound => "No such file or directory (os error 2)"
  | notADirectory => "Not a directory (os error 20)"
  | isADirectory => "Is a directory (os error 21)"
  | alreadyExists => "File exists (os error 17)"
  | directoryNotEmpty => "Directory not empty (os error 39)"
  | busy => "Device or resource busy (os error 16)"
  | tooManyLinks => "Too many levels of symbolic links (os error 40)"
  | nameTooLong => "File name too long (os error 36)"
  | permissionDenied => "Permission denied (os error 13)"
  | invalidArgument => "Invalid argument (os error 22)"
  | nulInName => "file name contained an unexpected NUL byte"
  | emptyPath => "cannot make an empty path absolute"
  | notText => "stream did not contain valid UTF-8"
  | other message => message

end Cause

end TextCatalog.Disk
