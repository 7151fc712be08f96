import DioMonitor.Utils.Config

/-!
# The log on the console

A call of `utils::logging` writes one line to the console, in several pieces: the level in its colour, the
time, the arguments separated by blanks, and the end of the line.
-/

namespace Logging

/-- The functions of `utils::logging`. -/
inductive Level where
  | info | error | warn | success | strange
  deriving DecidableEq, Repr

/-- The colour of a level. -/
def Level.color : Level → Str
  | .info => "\x1b[1;36m".toList
  | .error => "\x1b[1;31m".toList
  | .warn => "\x1b[1;33m".toList
  | .success => "\x1b[1;32m".toList
  | .strange => "\x1b[1;35m".toList

/-- The name of a level, as it is written. -/
def Level.name : Level → Str
  | .info => "INFO".toList
  | .error => "ERROR".toList
  | .warn => "WARNING".toList
  | .success => "SUCCESS".toList
  | .strange => "STRANGE".toList

/-- What separates the level from the time. -/
def Level.separator : Level → Str
  | .strange => "][ ".toList
  | _ => "][".toList

def RESET : Str := "\x1b[0m".toList

/-- `content_print`: the pieces it writes, one blank after each argument but the last. -/
def contentPrint : List Str → List Str
  | [] => []
  | [a] => [a]
  | a :: b => a :: " ".toList :: contentPrint b

/-- The pieces that one call writes, `time` being what `get_time` returns. -/
def pieces (level : Level) (time : Str) (msg : List Str) : List Str :=
  ["[".toList, level.color, level.name, RESET, level.separator, time, "] ".toList] ++ contentPrint msg ++
    ["\n".toList]

/-- The line that one call writes. -/
def line (level : Level) (time : Str) (msg : List Str) : Str := (pieces level time msg).flatten

end Logging
