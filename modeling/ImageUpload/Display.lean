import ImageUpload.Number.FixedPlaces
import ImageUpload.Session.Event

/-!
The events of a session as lines for a terminal.  A status line goes over the one
before it, with a spinner that turns by a quarter each time.
-/

namespace ImageUpload
namespace Display

/-- Bytes in units of `2 ^ 20`. -/
def megabytes (bytes : Nat) : Float :=
  wordToFloat bytes / 1048576

def spinner (turn : Nat) : Char :=
  match turn % 4 with
  | 0 => '|'
  | 1 => '/'
  | 2 => '-'
  | _ => '\\'

def twoDigits (n : Nat) : String :=
  if n < 10 then s!"0{n}" else s!"{n}"

def remainingText : Option Duration → String
  | none => "--:--:--"
  | some d =>
    twoDigits (d.secs / 3600) ++ ":" ++ twoDigits (d.secs / 60 % 60) ++ ":" ++
      twoDigits (d.secs % 60)

def statusLine (r : ProgressRecord) (spinner : Char) : String :=
  " Completed: " ++ padLeft 3 (fixedPlaces 0 r.percent) ++ "% [" ++
    padLeft 10 (fixedPlaces 2 (megabytes r.processed)) ++ " MB] RemainingTime: " ++
    remainingText r.remaining ++ " Throughput: " ++ fixedPlaces 0 r.megabitsPerSecond ++
    " Mb/sec " ++ spinner.toString ++ " "

/-- The blanks after the last line cover what is left of a status line. -/
def finishLine (outcome : SessionOutcome) (bytes : Nat) (percent : Float) : String :=
  let sent := fixedPlaces 2 (megabytes bytes)
  match outcome with
  | .completed => "\rCompleted: 100% [" ++ sent ++ " MB sent]" ++ padLeft 40 ""
  | .incomplete failed =>
    "\nUpload incomplete at " ++ fixedPlaces 0 percent ++ "% [" ++ sent ++
      s!" MB sent]: {failed} range(s) failed; re-run the same command to send the remaining ranges."
  | .sourceFailed =>
    "\nUpload aborted at " ++ fixedPlaces 0 percent ++ "% [" ++ sent ++
      " MB sent]: the source image could not be read."

def eventText (turn : Nat) : UploadEvent → String
  | .planned size effective ranges =>
    "Effective upload size: " ++ fixedPlaces 2 (megabytes effective) ++
      s!" MB in {ranges} range(s) (from " ++ fixedPlaces 2 (megabytes size) ++ " MB originally)\n"
  | .progress r => "\r" ++ statusLine r (spinner turn)
  | .rangeFailed f =>
    "\nrange " ++ f.range.text ++ s!" failed after {f.attempts} attempt(s): " ++ f.error ++ "\n"
  | .finished outcome bytes percent => finishLine outcome bytes percent ++ "\n"

def turnAfter (turn : Nat) : UploadEvent → Nat
  | .progress _ => turn + 1
  | _ => turn

def render (turn : Nat) : List UploadEvent → String
  | [] => ""
  | e :: rest => eventText turn e ++ render (turnAfter turn e) rest

end Display
end ImageUpload
