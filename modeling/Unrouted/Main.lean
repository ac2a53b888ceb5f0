import Unrouted.Session.Lines
import Unrouted.Session.Written

/-!
A session over standard input and output: one request on a line, one answer for it,
written at once.
-/

namespace Unrouted

def OpenError.ofIO : IO.Error → OpenError
  | .noFileOrDirectory _ _ _ => .missing
  | .permissionDenied _ code details | .inappropriateType _ code details =>
    .refused (details ++ " (os error " ++ toString code.toNat ++ ")")
  | cause => .refused (toString cause)

/-- The text of an open file. -/
def readText? (file : IO.FS.Handle) : IO (Option String) := do
  try return String.fromUTF8? (← file.readBinToEnd)
  catch _ => return none

/-- What fails after the file is open is not a failure to open it. -/
def openFiles (line : List UInt8) : IO Files := do
  match lineFile? line with
  | none => return fun _ => .error .missing
  | some path =>
    try
      let text ← readText? (← IO.FS.Handle.mk path .read)
      return fun _ => .ok text
    catch cause => return fun _ => .error (.ofIO cause)

/-- The bytes up to the next line feed, if any are left.  `line` holds those already
read, the last one first. -/
partial def readLine? (input : IO.FS.Stream) (line : List UInt8) : IO (Option (List UInt8)) := do
  match (← input.read 1).toList with
  | [] => return if line.isEmpty then none else some line.reverse
  | byte :: _ =>
    if byte = 10 then return some line.reverse
    else readLine? input (byte :: line)

partial def answerInput (input output : IO.FS.Stream) (s : Session) : IO Unit := do
  let some line ← readLine? input [] | return
  let (response, s) := s.answerLine (← openFiles line) line
  if let some response := response then
    output.putStrLn response.encode.text
    output.flush
  answerInput input output s

end Unrouted

def main : IO Unit := do
  Unrouted.answerInput (← IO.getStdin) (← IO.getStdout) Unrouted.Session.start
