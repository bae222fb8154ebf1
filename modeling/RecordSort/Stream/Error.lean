/-! # Stream errors

A transfer over a stream fails either with an error that the other end *reports*, a kind and a text of
its own, or with an error of the *system* that keeps the files, whose kind and text follow from its
cause.

* **`ErrorKind`** — what class of failure an error belongs to. One kind matters to this library:
  an `interrupted` transfer is tried again.
* **`SystemError`** — the causes for which a file cannot be reached, read or replaced.
* **`StreamError`** — an error of either origin, with its `kind` and its `text`. -/

namespace RecordSort

/-- The class of failure that an error belongs to. -/
inductive ErrorKind
  | notFound
  | permissionDenied
  | connectionReset
  | brokenPipe
  | alreadyExists
  | wouldBlock
  | notADirectory
  | isADirectory
  | filesystemLoop
  | invalidInput
  | invalidData
  | timedOut
  | writeZero
  | resourceBusy
  | invalidFilename
  | interrupted
  | unexpectedEnd
  | other
  deriving DecidableEq, Repr

/-- The causes for which the system that keeps the files refuses a request. -/
inductive SystemError
  /-- A name on the way, or at its end, does not exist. -/
  | noEntry
  /-- A name that must lead on is not that of a directory. -/
  | notDirectory
  /-- A directory stands where bytes are asked for or are to be put. -/
  | isDirectory
  /-- A name, or the whole path, is too long. -/
  | nameTooLong
  /-- Too many symbolic links on one way. -/
  | tooManyLinks
  /-- A name that is to be new is taken. -/
  | entryExists
  /-- The directory that is to be replaced is in use. -/
  | busy
  /-- The permission bits of a file forbid what is asked. -/
  | accessDenied
  /-- A path holds the character of code 0, which no name can hold. -/
  | invalidArgument
  deriving DecidableEq, Repr

namespace SystemError

/-- The class of failure of each cause. -/
def kind : SystemError → ErrorKind
  | noEntry => .notFound
  | notDirectory => .notADirectory
  | isDirectory => .isADirectory
  | nameTooLong => .invalidFilename
  | tooManyLinks => .filesystemLoop
  | entryExists => .alreadyExists
  | busy => .resourceBusy
  | accessDenied => .permissionDenied
  | invalidArgument => .invalidInput

/-- The words of each cause, with the number under which the system reports it. -/
def text : SystemError → String
  | noEntry => "No such file or directory (os error 2)"
  | accessDenied => "Permission denied (os error 13)"
  | busy => "Device or resource busy (os error 16)"
  | entryExists => "File exists (os error 17)"
  | notDirectory => "Not a directory (os error 20)"
  | isDirectory => "Is a directory (os error 21)"
  | invalidArgument => "Invalid argument (os error 22)"
  | nameTooLong => "File name too long (os error 36)"
  | tooManyLinks => "Too many levels of symbolic links (os error 40)"

end SystemError

/-- Outcomes can be compared. -/
instance decidableEqExcept {ε α : Type} [DecidableEq ε] [DecidableEq α] : DecidableEq (Except ε α)
  | .error a, .error b => decidable_of_iff (a = b) ⟨congrArg _, Except.error.inj⟩
  | .ok a, .ok b => decidable_of_iff (a = b) ⟨congrArg _, Except.ok.inj⟩
  | .error _, .ok _ | .ok _, .error _ => .isFalse nofun

/-- An **error of a stream**: reported by its other end, or by the system that keeps the files. -/
inductive StreamError
  | reported (kind : ErrorKind) (text : String)
  | system (cause : SystemError)
  deriving DecidableEq, Repr

namespace StreamError

/-- The class of failure that the error belongs to. -/
def kind : StreamError → ErrorKind
  | reported k _ => k
  | system cause => cause.kind

/-- The words of the error. -/
def text : StreamError → String
  | reported _ t => t
  | system cause => cause.text

/-- An **interrupted** transfer has moved nothing and may be tried again at once. -/
def isInterrupted (e : StreamError) : Bool := e.kind = .interrupted

/-- The error of a sink that accepts nothing of what it is offered. -/
def writeZero : StreamError := reported .writeZero "failed to write whole buffer"

/-- The error for a record that may not hold the delimiter and does. -/
def delimiterInRecord : StreamError := reported .invalidInput "record contains the delimiter"

/-- The error for a path that holds the character of code 0, when it is to be read from: the system is
not even asked for it. -/
def nulInPath : StreamError := reported .invalidInput "file name contained an unexpected NUL byte"

end StreamError

/-- A **transfer** as a stream's schedule lays it down: how much it moves at most, or how it fails. -/
inductive Transfer
  | upTo (count : Nat)
  | fail (error : StreamError)
  deriving DecidableEq, Repr

end RecordSort
