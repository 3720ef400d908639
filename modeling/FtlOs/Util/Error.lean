import Mathlib.Init

/-!
# Error numbers

The `SysError` values of `ftl-util` that the modelled functions return, and
`SysR`, the result type of every fallible kernel and file-system call.
-/

namespace FtlOs

/-- The error numbers of `ftl_util::error::SysError` that the modelled code returns. -/
inductive SysError where
  | EIO
  | EBADF
  | ENOMEM
  | EEXIST
  | EINVAL
  | EMFILE
  | ENOSPC
  | ENOBUFS
  | EAGAIN
  | EPERM
  | EFAULT
  | ENOENT
  | ENAMETOOLONG
  | EACCES
  | ERANGE
  | EISDIR
  deriving DecidableEq, Repr

/-- `SysR<T>`. -/
abbrev SysR (α : Type) := Except SysError α

end FtlOs
