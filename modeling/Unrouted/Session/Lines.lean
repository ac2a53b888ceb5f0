import Unrouted.Session.Basic

/-!
A session over lines of bytes: one request on a line, one answer for it.  Lines that
are blank or not UTF-8 are passed over.
-/

namespace Unrouted

/-- The characters of the Unicode property White_Space. -/
def isWhiteSpace (c : Char) : Bool :=
  let n := c.toNat
  (decide (9 ≤ n) && decide (n ≤ 13)) || n == 0x20 || n == 0x85 || n == 0xA0 ||
    n == 0x1680 || (decide (0x2000 ≤ n) && decide (n ≤ 0x200A)) || n == 0x2028 ||
    n == 0x2029 || n == 0x202F || n == 0x205F || n == 0x3000

/-- The text of a line, if there is any in it. -/
def lineText? (line : List UInt8) : Option String :=
  match String.fromUTF8? line.toByteArray with
  | none => none
  | some s => if s.toList.all isWhiteSpace then none else some s

/-- Cuts bytes at line feeds.  What follows the last one is a line if it is not
empty. -/
def splitLines (bytes : List UInt8) : List (List UInt8) :=
  bytes.foldr (fun b lines =>
    if b = 10 then [] :: lines
    else match lines with
      | [] => [[b]]
      | line :: more => (b :: line) :: more) []

def Command.file? : Command → Option String
  | .load none path _ => path
  | _ => none

/-- The file that has to be read before a line is answered. -/
def lineFile? (line : List UInt8) : Option String := do
  let text ← lineText? line
  let request ← (Request.read text).toOption
  let command ← (Command.ofRequest request.method request.params).toOption
  command.file?

namespace Session

def answerText (s : Session) (files : Files) (line : String) : Response × Session :=
  match Request.read line with
  | .ok request => s.answer files request
  | .error cause => ({ id := none, outcome := .error (.unreadableRequest cause) }, s)

/-- Answers a line, if there is something to answer. -/
def answerLine (s : Session) (files : Files) (line : List UInt8) : Option Response × Session :=
  match lineText? line with
  | none => (none, s)
  | some text =>
    let (response, s) := s.answerText files text
    (some response, s)

/-- The answers to some lines, one place for each line. -/
def answerEach (s : Session) (files : Files) :
    List (List UInt8) → List (Option Response) × Session
  | [] => ([], s)
  | line :: rest =>
    let (response, s) := s.answerLine files line
    let (responses, s) := s.answerEach files rest
    (response :: responses, s)

/-- The answers that are given, in their order. -/
def answerLines (s : Session) (files : Files) (lines : List (List UInt8)) :
    List Response × Session :=
  let (responses, s) := s.answerEach files lines
  (responses.filterMap id, s)

end Session

end Unrouted
