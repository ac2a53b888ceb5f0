import Unrouted.Json.Lexer
import Unrouted.Proofs.Json.Numeral
import Mathlib.Data.List.Chain

/-!
The text of tokens, with blanks between them, is read as these tokens.  Words and numerals end
only where something else begins, so two of them do not come one after the other.
-/

namespace Unrouted
namespace Json

variable {t : Token} {ts : List Token} {cs rest : List Char} {c : Char}

namespace Token

/-- The token is written in a way that can be read back: numbers are whole, and strings have a
value. -/
def isPlain : Token → Bool
  | number n => n.any fun n => match n with | .whole _ => true | .real _ => false
  | string s => s.isSome
  | _ => true

/-- The token ends only where the next one begins. -/
def isLoose : Token → Bool
  | null | bool _ | number _ => true
  | _ => false

/-- The tokens are told apart when one comes right after the other. -/
def Parted (t u : Token) : Prop := t.isLoose = true → u.isLoose = false

theorem isChain_cons_of_tight (ht : t.isLoose = false) (h : ts.IsChain Parted) :
    (t :: ts).IsChain Parted := by
  rw [List.isChain_cons]
  exact ⟨fun u _ hloose => absurd hloose (by simp [ht]), h⟩

theorem isChain_append_of_tight {us : List Token} (ht : t.isLoose = false)
    (h : ts.IsChain Parted) (hus : us.IsChain Parted) : (ts ++ t :: us).IsChain Parted := by
  rw [List.isChain_append]
  refine ⟨h, isChain_cons_of_tight ht hus, fun u _ v hv _ => ?_⟩
  obtain rfl := Option.some.inj hv
  exact ht

/-- What the text of a token is read as.  A whole number beyond 64 bits is no whole number any
more. -/
def asRead : Token → Token
  | number (some (.whole n)) => number (Numeral.ofInt n).value?
  | t => t

end Token

/-- The text of some tokens, with blanks before, between and after them. -/
def Spaced : List Token → List Char → Prop
  | [], cs => ∀ c ∈ cs, Lexer.isBlank c = true
  | t :: rest, cs => ∃ blanks after, (∀ c ∈ blanks, Lexer.isBlank c = true) ∧
      cs = blanks ++ (t.text ++ after) ∧ Spaced rest after

namespace Lexer

variable {l m : Lexer} {done : List Token} {seen : List Char} {parts : List StringPart}

/-- Between two tokens. -/
def after (done : List Token) : Lexer := { mode := .between, tokens := done }

/-- The tokens of a text that goes on with some characters. -/
def read? (l : Lexer) (cs : List Char) : Option (List Token) := (l.run cs).bind finish?

theorem run_cons (l : Lexer) (c : Char) (cs : List Char) :
    l.run (c :: cs) = (l.step c).bind fun m => m.run cs := rfl

theorem run_of_step (h : l.step c = some m) : l.run (c :: cs) = m.run cs := by
  rw [run_cons, h, Option.bind_some]

theorem read?_append (h : l.run cs = some m) : l.read? (cs ++ rest) = m.read? rest := by
  rw [read?, run_append, h]
  rfl

/-! ## Blanks -/

theorem eq_of_isBlank (h : isBlank c = true) : c = ' ' ∨ c = '\t' ∨ c = '\n' ∨ c = '\r' := by
  simpa [isBlank, or_assoc] using h

theorem run_blanks (h : ∀ c ∈ cs, isBlank c = true) : (after done).run cs = some (after done) := by
  induction cs with
  | nil => rfl
  | cons c rest ih =>
    have hstep : (after done).step c = some (after done) := by
      show begin done c = _
      rw [begin, if_pos (h c List.mem_cons_self)]
      rfl
    rw [run_of_step hstep, ih fun d hd => h d (List.mem_cons_of_mem c hd)]

/-! ## Strings -/

theorem hexValue?_hexDigit : ∀ d < 16, hexValue? (hexDigit d) = some d := by decide

theorem ofUnit_toNat (h : c.toNat < 0x20) : StringPart.ofUnit c.toNat = .char c := by
  have hhigh : StringPart.isHigh c.toNat = false := by simp [StringPart.isHigh]; omega
  have hlow : StringPart.isLow c.toNat = false := by simp [StringPart.isLow]; omega
  rw [StringPart.ofUnit, hhigh, hlow, if_neg (by simp), Char.ofNat_toNat]

/-- Four hexadecimal digits spell a character, of which the first two are zero for one that has
no short escape. -/
theorem run_controlEscape (h : c.toNat < 0x20) (parts : List StringPart) (done : List Token) :
    ({ mode := .inString parts, tokens := done } : Lexer).run
        ['\\', 'u', '0', '0', hexDigit (c.toNat / 16), hexDigit (c.toNat % 16)] =
      some { mode := .inString (.char c :: parts), tokens := done } := by
  have hhigh : hexValue? (hexDigit (c.toNat / 16)) = some (c.toNat / 16) :=
    hexValue?_hexDigit _ (by omega)
  have hlow : hexValue? (hexDigit (c.toNat % 16)) = some (c.toNat % 16) :=
    hexValue?_hexDigit _ (by omega)
  have hvalue : ((0 * 16 + 0) * 16 + c.toNat / 16) * 16 + c.toNat % 16 = c.toNat := by omega
  have hprefix : ({ mode := .inString parts, tokens := done } : Lexer).run ['\\', 'u', '0', '0'] =
      some { mode := .unit parts [0, 0], tokens := done } := rfl
  have hthird : ({ mode := .unit parts [0, 0], tokens := done } : Lexer).step
      (hexDigit (c.toNat / 16)) =
        some { mode := .unit parts [c.toNat / 16, 0, 0], tokens := done } := by
    simp only [step, hhigh, Option.map_some]
  have hfourth : ({ mode := .unit parts [c.toNat / 16, 0, 0], tokens := done } : Lexer).step
      (hexDigit (c.toNat % 16)) =
        some { mode := .inString (.char c :: parts), tokens := done } := by
    simp only [step, hlow, Option.map_some, hvalue, ofUnit_toNat h]
  rw [show ['\\', 'u', '0', '0', hexDigit (c.toNat / 16), hexDigit (c.toNat % 16)] =
    ['\\', 'u', '0', '0'] ++ [hexDigit (c.toNat / 16), hexDigit (c.toNat % 16)] from rfl,
    run_append, hprefix, Option.bind_some, run_of_step hthird, run_of_step hfourth]
  rfl

/-- A character in a string is read as itself, however it has to be written. -/
theorem run_escape (c : Char) (parts : List StringPart) (done : List Token) :
    ({ mode := .inString parts, tokens := done } : Lexer).run (escape c) =
      some { mode := .inString (.char c :: parts), tokens := done } := by
  unfold escape
  split_ifs with hquote hslash hn hr ht hb hf hcontrol
  · subst hquote
    rfl
  · subst hslash
    rfl
  · subst hn
    rfl
  · subst hr
    rfl
  · subst ht
    rfl
  · subst hb
    rfl
  · subst hf
    rfl
  · exact run_controlEscape hcontrol parts done
  · have hstep : ({ mode := .inString parts, tokens := done } : Lexer).step c =
        some { mode := .inString (.char c :: parts), tokens := done } := by
      simp only [step, if_neg hquote, if_neg hslash, if_neg hcontrol]
    rw [run_of_step hstep]
    rfl

theorem run_string (s : List Char) (parts : List StringPart) (done : List Token) :
    ({ mode := .inString parts, tokens := done } : Lexer).run (s.flatMap escape) =
      some { mode := .inString ((s.map .char).reverse ++ parts), tokens := done } := by
  induction s generalizing parts with
  | nil => rfl
  | cons c rest ih =>
    rw [List.flatMap_cons, run_append, run_escape, Option.bind_some, ih]
    simp

theorem ofParts_map_char (s : List Char) :
    Token.ofParts (s.map .char) = .string (some (String.ofList s)) := by
  have hchars : StringPart.chars? (s.map .char) = some s := by
    induction s with
    | nil => rfl
    | cons c rest ih => rw [List.map_cons, StringPart.chars?, ih, Option.map_some]
  rw [Token.ofParts, hchars, Option.map_some]

/-! ## Words and numerals -/

/-- The characters do not go on with a word or a numeral. -/
def Apart (cs : List Char) : Prop :=
  ∀ c ∈ cs.head?, isWordChar c = false ∧ isNumeralChar c = false

/-- A word ends at the first character that does not belong to it. -/
theorem read?_word (ht : Token.ofWord? seen.reverse = some t) (h : Apart rest) :
    ({ mode := .word seen, tokens := done } : Lexer).read? rest =
      (after (t :: done)).read? rest := by
  cases rest with
  | nil => simp only [read?, run, List.foldlM_nil, Option.pure_def, Option.bind_some, finish?, ht,
      Option.map_some, after]
  | cons c rest =>
    have hc := (h c rfl).1
    have hstep : ({ mode := .word seen, tokens := done } : Lexer).step c =
        (after (t :: done)).step c := by
      simp only [step, hc, ht, Option.bind_some, after, Bool.false_eq_true, if_false]
    rw [read?, read?, run_cons, run_cons, hstep]

/-- A numeral ends at the first character that does not belong to it. -/
theorem read?_numeral (ht : Token.ofNumeral? seen.reverse = some t) (h : Apart rest) :
    ({ mode := .numeral seen, tokens := done } : Lexer).read? rest =
      (after (t :: done)).read? rest := by
  cases rest with
  | nil => simp only [read?, run, List.foldlM_nil, Option.pure_def, Option.bind_some, finish?, ht,
      Option.map_some, after]
  | cons c rest =>
    have hc := (h c rfl).2
    have hstep : ({ mode := .numeral seen, tokens := done } : Lexer).step c =
        (after (t :: done)).step c := by
      simp only [step, hc, ht, Option.bind_some, after, Bool.false_eq_true, if_false]
    rw [read?, read?, run_cons, run_cons, hstep]

theorem run_numeral (h : ∀ c ∈ cs, isNumeralChar c = true) :
    ({ mode := .numeral seen, tokens := done } : Lexer).run cs =
      some { mode := .numeral (cs.reverse ++ seen), tokens := done } := by
  induction cs generalizing seen with
  | nil => rfl
  | cons c rest ih =>
    have hstep : ({ mode := .numeral seen, tokens := done } : Lexer).step c =
        some { mode := .numeral (c :: seen), tokens := done } := by
      simp only [step, h c List.mem_cons_self, if_true]
    rw [run_of_step hstep, ih fun d hd => h d (List.mem_cons_of_mem c hd)]
    simp

theorem step_numeralStart (h : c = '-' ∨ c.isDigit = true) :
    (after done).step c = some { mode := .numeral [c], tokens := done } := by
  have hblank : isBlank c = false := by
    rw [Bool.eq_false_iff]
    intro hblank
    rcases eq_of_isBlank hblank with rfl | rfl | rfl | rfl <;> revert h <;> decide
  have hquote : c ≠ '"' := by
    rintro rfl
    revert h
    decide
  have hstart : (decide (c = '-') || c.isDigit) = true := by simpa using h
  show begin done c = _
  rw [begin, if_neg (by simp [hblank]), if_neg hquote]
  exact if_pos hstart

theorem isNumeralChar_of_isDigit (h : c.isDigit = true) : isNumeralChar c = true := by
  simp [isNumeralChar, h]

theorem run_toString (n : Int) : (after done).run (toString n).toList =
    some { mode := .numeral (toString n).toList.reverse, tokens := done } := by
  have hstart (c : Char) (cs : List Char) (hc : c = '-' ∨ c.isDigit = true)
      (hcs : ∀ d ∈ cs, d.isDigit = true) : (after done).run (c :: cs) =
        some { mode := .numeral (c :: cs).reverse, tokens := done } := by
    rw [run_of_step (step_numeralStart hc),
      run_numeral fun d hd => isNumeralChar_of_isDigit (hcs d hd), List.reverse_cons]
  have hdigits (m : Nat) : ∀ c ∈ Nat.toDigits 10 m, c.isDigit = true :=
    Numeral.isDigit_of_mem_toDigits
  rw [Int.toString_eq_repr, Int.repr_eq_if]
  split
  · rw [Nat.toList_repr]
    cases hcs : Nat.toDigits 10 n.toNat with
    | nil => exact absurd hcs Nat.toDigits_ne_nil
    | cons c rest =>
      have hall := hcs ▸ hdigits n.toNat
      exact hstart c rest (.inr (hall c List.mem_cons_self))
        fun d hd => hall d (List.mem_cons_of_mem c hd)
  · rw [String.toList_append, Nat.toList_repr]
    exact hstart '-' _ (.inl rfl) (hdigits _)

/-! ## Tokens -/

/-- A token is read as it should be, if nothing belongs to it of what follows. -/
theorem read?_text (hplain : t.isPlain = true) (hrest : t.isLoose = true → Apart rest) :
    (after done).read? (t.text ++ rest) = (after (t.asRead :: done)).read? rest := by
  cases t with
  | beginArray => exact read?_append rfl
  | endArray => exact read?_append rfl
  | beginObject => exact read?_append rfl
  | endObject => exact read?_append rfl
  | colon => exact read?_append rfl
  | comma => exact read?_append rfl
  -- A word or a numeral is read when its end is seen, by what comes after it.
  | null =>
    have hrun : (after done).run Token.null.text =
        some { mode := .word "null".toList.reverse, tokens := done } := rfl
    rw [read?_append hrun]
    exact read?_word rfl (hrest rfl)
  | bool b =>
    have hrun : (after done).run (Token.bool b).text =
        some { mode := .word (Token.bool b).text.reverse, tokens := done } := by cases b <;> rfl
    rw [read?_append hrun]
    refine read?_word ?_ (hrest rfl)
    cases b <;> rfl
  | number n =>
    obtain ⟨k, rfl⟩ : ∃ k : Int, n = some (.whole k) := by
      cases n with
      | none => exact absurd hplain (by decide)
      | some m =>
        cases m with
        | whole k => exact ⟨k, rfl⟩
        | real x => exact absurd hplain (by simp [Token.isPlain])
    rw [Token.text, read?_append (run_toString k)]
    refine read?_numeral ?_ (hrest rfl)
    rw [List.reverse_reverse, Token.ofNumeral?, Numeral.ofChars?_toString, Option.map_some]
    rfl
  | string v =>
    obtain ⟨v, rfl⟩ : ∃ w, v = some w := Option.isSome_iff_exists.1 hplain
    have hopen : (after done).step '"' = some { mode := .inString [], tokens := done } := rfl
    have hclose (parts : List StringPart) :
        ({ mode := .inString parts, tokens := done } : Lexer).step '"' =
          some (after (Token.ofParts parts.reverse :: done)) := rfl
    have hrun : (after done).run (Token.string (some v)).text =
        some (after (.string (some v) :: done)) := by
      rw [Token.text, run_of_step hopen, run_append, run_string, Option.bind_some,
        run_of_step (hclose _), List.append_nil, List.reverse_reverse, ofParts_map_char,
        String.ofList_toList]
      rfl
    exact read?_append hrun

/-- Blanks and tokens that are not loose do not go on with a word or a numeral. -/
theorem apart_of_spaced (h : Spaced ts cs) (hplain : ∀ t ∈ ts, t.isPlain = true)
    (htight : ∀ t ∈ ts.head?, t.isLoose = false) : Apart cs := by
  have hblank {c : Char} (hc : isBlank c = true) :
      isWordChar c = false ∧ isNumeralChar c = false := by
    rcases eq_of_isBlank hc with rfl | rfl | rfl | rfl <;> decide
  cases ts with
  | nil => exact fun c hc => hblank (h c (List.mem_of_mem_head? hc))
  | cons t rest =>
    obtain ⟨blanks, after, hblanks, rfl, -⟩ := h
    cases blanks with
    | cons b more =>
      intro c hc
      obtain rfl := Option.some.inj hc
      exact hblank (hblanks b List.mem_cons_self)
    | nil =>
      have ht := htight t rfl
      have hp := hplain t List.mem_cons_self
      intro c hc
      cases t with
      | null => exact absurd ht (by decide)
      | bool b => exact absurd ht (by simp [Token.isLoose])
      | number n => exact absurd ht (by simp [Token.isLoose])
      | string v =>
        obtain ⟨v, rfl⟩ : ∃ w, v = some w := Option.isSome_iff_exists.1 hp
        obtain rfl := Option.some.inj hc
        decide
      | beginArray | endArray | beginObject | endObject | colon | comma =>
        obtain rfl := Option.some.inj hc
        decide

theorem read?_of_spaced (hplain : ∀ t ∈ ts, t.isPlain = true)
    (hchain : ts.IsChain Token.Parted) (h : Spaced ts cs) :
    (after done).read? cs = some (done.reverse ++ ts.map Token.asRead) := by
  induction ts generalizing cs done with
  | nil =>
    have hrun : (after done).read? (cs ++ []) = (after done).read? [] :=
      read?_append (run_blanks h)
    rw [List.append_nil] at hrun
    rw [hrun]
    simp [read?, run, finish?, after]
  | cons t rest ih =>
    obtain ⟨blanks, after, hblanks, rfl, hrest⟩ := h
    have hmore : ∀ u ∈ rest, u.isPlain = true := fun u hu => hplain u (List.mem_cons_of_mem t hu)
    rw [List.isChain_cons] at hchain
    have hapart (hloose : t.isLoose = true) : Apart after :=
      apart_of_spaced hrest hmore fun u hu => hchain.1 u hu hloose
    rw [read?_append (run_blanks hblanks), read?_text (hplain t List.mem_cons_self) hapart,
      ih hmore hchain.2 hrest]
    simp

end Lexer

/-- The tokens of a text are those that were written. -/
theorem tokens?_of_spaced (hplain : ∀ t ∈ ts, t.isPlain = true)
    (hchain : ts.IsChain Token.Parted) (h : Spaced ts cs) :
    tokens? cs = some (ts.map Token.asRead) :=
  Lexer.read?_of_spaced hplain hchain h

end Json
end Unrouted
