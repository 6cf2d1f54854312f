/-! What the operating system answers when it refuses a call. -/

namespace PooledHttp

inductive SystemError
  | notFound
  | argumentsTooLong
  | execFormat
  | permissionDenied
  | notDirectory
  | isDirectory
  | brokenPipe
  | nameTooLong
  | tooManyLinks
  | addressNotAvailable
  | networkUnreachable
  | connectionReset
  | timedOut
  | nulByte
  | other (text : String)
deriving DecidableEq, Repr

def SystemError.message : SystemError → String
  | notFound => "No such file or directory (os error 2)"
  | argumentsTooLong => "Argument list too long (os error 7)"
  | execFormat => "Exec format error (os error 8)"
  | permissionDenied => "Permission denied (os error 13)"
  | notDirectory => "Not a directory (os error 20)"
  | isDirectory => "Is a directory (os error 21)"
  | brokenPipe => "Broken pipe (os error 32)"
  | nameTooLong => "File name too long (os error 36)"
  | tooManyLinks => "Too many levels of symbolic links (os error 40)"
  | addressNotAvailable => "Cannot assign requested address (os error 99)"
  | networkUnreachable => "Network is unreachable (os error 101)"
  | connectionReset => "Connection reset by peer (os error 104)"
  | timedOut => "Connection timed out (os error 110)"
  | nulByte => "nul byte found in provided data"
  | other text => text

end PooledHttp
