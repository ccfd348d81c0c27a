import Mathlib.Data.List.Basic

/-! The answers of the system calls the programs make. A `read` or `write`
reports a count, the end of the stream or an error, and `errno` is what the C
library says it is: a failing call sets it and every other call leaves it
alone. -/
namespace TcpCongestion.Posix

abbrev Errno := Int

def EAGAIN : Errno := 11
def EWOULDBLOCK : Errno := EAGAIN
def EBADF : Errno := 9
def ENOENT : Errno := 2
def EEXIST : Errno := 17
def ERANGE : Errno := 34
def ECONNRESET : Errno := 104

/-- `errno == EWOULDBLOCK || errno == EAGAIN`. -/
def wouldBlock (errno : Errno) : Bool := errno == EWOULDBLOCK || errno == EAGAIN

/-- Bytes one `read` delivered into a buffer of `size` bytes. -/
structure Chunk (size : Nat) where
  bytes : List UInt8
  nonempty : 0 < bytes.length
  fits : bytes.length ≤ size

/-- The next bytes of a stream, as many as the buffer holds. -/
def Chunk.next (byte : UInt8) (rest : List UInt8) : Chunk (size + 1) where
  bytes := byte :: rest.take size
  nonempty := Nat.succ_pos _
  fits := Nat.succ_le_succ (List.length_take_le size rest)

/-- The answer of `read(fd, buffer, size)`: a positive count, 0, or -1. -/
inductive ReadResult (size : Nat) where
  | data (chunk : Chunk size)
  | eof
  | error (errno : Errno)

def ReadResult.errnoAfter (before : Errno) : ReadResult size → Errno
  | .data _ => before
  | .eof => before
  | .error errno => errno

/-- The answer of `write(fd, buffer, len)`. The kernel never takes more than it
was offered, so a larger count stands for all of it. -/
inductive WriteResult where
  | accepted (count : Nat)
  | error (errno : Errno)
  deriving DecidableEq

def WriteResult.count (len : Nat) : WriteResult → Nat
  | .accepted count => min count len
  | .error _ => 0

def WriteResult.errnoAfter (before : Errno) : WriteResult → Errno
  | .accepted _ => before
  | .error errno => errno

theorem WriteResult.count_le (len : Nat) (result : WriteResult) : result.count len ≤ len := by
  cases result with
  | accepted count => exact Nat.min_le_right count len
  | error errno => exact Nat.zero_le len

end TcpCongestion.Posix
