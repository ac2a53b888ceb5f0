import Unrouted.Json.Token

/-!
From characters to tokens, one character at a time.  Words and numerals end where a
character no longer belongs to them; strings end at their quote.
-/

namespace Unrouted
namespace Json

/-- What the lexer is in the middle of.  The lists have their latest entry first. -/
inductive Mode where
  | between
  | word (seen : List Char)
  | numeral (seen : List Char)
  | inString (parts : List StringPart)
  | escaped (parts : List StringPart)
  /-- After `\u`, with the hexadecimal digits so far. -/
  | unit (parts : List StringPart) (digits : List Nat)
deriving Repr

structure Lexer where
  mode : Mode
  /-- The finished tokens, the latest first. -/
  tokens : List Token
deriving Repr

namespace Lexer

def start : Lexer := { mode := .between, tokens := [] }

/-- Space, tab, line feed and carriage return. -/
def isBlank (c : Char) : Bool := c = ' ' || c = '\t' || c = '\n' || c = '\r'

def isWordChar (c : Char) : Bool := c.isLower

def isNumeralChar (c : Char) : Bool :=
  c.isDigit || c = '-' || c = '+' || c = '.' || c = 'e' || c = 'E'

def hexValue? (c : Char) : Option Nat :=
  if c.isDigit then some (c.toNat - 48)
  else if 'a' ≤ c ∧ c ≤ 'f' then some (c.toNat - 87)
  else if 'A' ≤ c ∧ c ≤ 'F' then some (c.toNat - 55)
  else none

def simpleEscape? (c : Char) : Option Char :=
  if c = '"' ∨ c = '\\' ∨ c = '/' then some c
  else if c = 'b' then some '\x08'
  else if c = 'f' then some '\x0c'
  else if c = 'n' then some '\n'
  else if c = 'r' then some '\r'
  else if c = 't' then some '\t'
  else none

def punctuation? (c : Char) : Option Token :=
  if c = '[' then some .beginArray
  else if c = ']' then some .endArray
  else if c = '{' then some .beginObject
  else if c = '}' then some .endObject
  else if c = ':' then some .colon
  else if c = ',' then some .comma
  else none

/-- A character between tokens. -/
def begin (tokens : List Token) (c : Char) : Option Lexer :=
  if isBlank c then some { mode := .between, tokens }
  else if c = '"' then some { mode := .inString [], tokens }
  else if c = '-' || c.isDigit then some { mode := .numeral [c], tokens }
  else if isWordChar c then some { mode := .word [c], tokens }
  else (punctuation? c).map fun t => { mode := .between, tokens := t :: tokens }

/-- One more character; `none` when no text goes on like this. -/
def step (l : Lexer) (c : Char) : Option Lexer :=
  match l.mode with
  | .between => begin l.tokens c
  | .word seen =>
    if isWordChar c then some { l with mode := .word (c :: seen) }
    else (Token.ofWord? seen.reverse).bind fun t => begin (t :: l.tokens) c
  | .numeral seen =>
    if isNumeralChar c then some { l with mode := .numeral (c :: seen) }
    else (Token.ofNumeral? seen.reverse).bind fun t => begin (t :: l.tokens) c
  | .inString parts =>
    if c = '"' then some { mode := .between, tokens := Token.ofParts parts.reverse :: l.tokens }
    else if c = '\\' then some { l with mode := .escaped parts }
    else if c.toNat < 0x20 then none
    else some { l with mode := .inString (.char c :: parts) }
  | .escaped parts =>
    if c = 'u' then some { l with mode := .unit parts [] }
    else (simpleEscape? c).map fun d => { l with mode := .inString (.char d :: parts) }
  | .unit parts ds =>
    (hexValue? c).map fun d =>
      match ds with
      | [d₃, d₂, d₁] =>
        let part := StringPart.ofUnit (((d₁ * 16 + d₂) * 16 + d₃) * 16 + d)
        { l with mode := .inString (part :: parts) }
      | _ => { l with mode := .unit parts (d :: ds) }

/-- The tokens when the text ends here. -/
def finish? (l : Lexer) : Option (List Token) :=
  match l.mode with
  | .between => some l.tokens.reverse
  | .word seen => (Token.ofWord? seen.reverse).map fun t => (t :: l.tokens).reverse
  | .numeral seen => (Token.ofNumeral? seen.reverse).map fun t => (t :: l.tokens).reverse
  | _ => none

def run (l : Lexer) (cs : List Char) : Option Lexer := cs.foldlM step l

theorem run_append (l : Lexer) (cs ds : List Char) :
    l.run (cs ++ ds) = (l.run cs).bind fun m => m.run ds := by
  simp only [run, List.foldlM_append]
  rfl

end Lexer

def tokens? (cs : List Char) : Option (List Token) := (Lexer.start.run cs).bind Lexer.finish?

end Json
end Unrouted
