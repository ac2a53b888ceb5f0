import Unrouted.Json.Reader
import Unrouted.Proofs.Json.Lexer

/-!
The text of a value is read as this value.  Only a whole number that does not fit 64 bits is read
as another one, or as none.
-/

namespace Unrouted
namespace Json

/- The recursions over a value run through its lists of items and fields. -/
mutual

/-- Numbers are whole, and every part stands for a value. -/
def isPlain : Json → Bool
  | number (.real _) => false
  | array items => allPlain items
  | object fields => allFieldsPlain fields
  | illegible => false
  | _ => true

def allPlain : List Json → Bool
  | [] => true
  | j :: rest => j.isPlain && allPlain rest

def allFieldsPlain : List (String × Json) → Bool
  | [] => true
  | (_, j) :: rest => j.isPlain && allFieldsPlain rest

end

mutual

/-- What the text of a value is read as. -/
def asRead : Json → Json
  | number (.whole n) => ((Numeral.ofInt n).value?.map number).getD illegible
  | array items => array (itemsAsRead items)
  | object fields => object (fieldsAsRead fields)
  | j => j

def itemsAsRead : List Json → List Json
  | [] => []
  | j :: rest => j.asRead :: itemsAsRead rest

def fieldsAsRead : List (String × Json) → List (String × Json)
  | [] => []
  | (k, j) :: rest => (k, j.asRead) :: fieldsAsRead rest

end

theorem itemsAsRead_eq (items : List Json) : itemsAsRead items = items.map asRead := by
  induction items with
  | nil => rfl
  | cons j rest ih => rw [itemsAsRead, ih, List.map_cons]

theorem fieldsAsRead_eq (fields : List (String × Json)) :
    fieldsAsRead fields = fields.map fun f => (f.1, f.2.asRead) := by
  induction fields with
  | nil => rfl
  | cons f rest ih => rw [fieldsAsRead, ih, List.map_cons]

theorem asRead_whole {n : Int} (hlow : -0x8000000000000000 ≤ n) (hhigh : n < 0x10000000000000000) :
    (number (.whole n)).asRead = number (.whole n) := by
  rw [asRead, Numeral.value?_ofInt hlow hhigh]
  rfl

/-! ## Tokens of a value -/

mutual

theorem isChain_tokens : ∀ j : Json, j.tokens.IsChain Token.Parted
  | null => List.isChain_singleton _
  | bool _ => List.isChain_singleton _
  | number _ => List.isChain_singleton _
  | string _ => List.isChain_singleton _
  | illegible => List.isChain_singleton _
  | array items =>
    Token.isChain_cons_of_tight rfl
      (Token.isChain_append_of_tight rfl (isChain_itemTokens items) List.isChain_nil)
  | object fields =>
    Token.isChain_cons_of_tight rfl
      (Token.isChain_append_of_tight rfl (isChain_fieldTokens fields) List.isChain_nil)

theorem isChain_itemTokens : ∀ items : List Json, (itemTokens items).IsChain Token.Parted
  | [] => List.isChain_nil
  | [j] => isChain_tokens j
  | j :: k :: rest =>
    Token.isChain_append_of_tight rfl (isChain_tokens j) (isChain_itemTokens (k :: rest))

theorem isChain_fieldTokens :
    ∀ fields : List (String × Json), (fieldTokens fields).IsChain Token.Parted
  | [] => List.isChain_nil
  | [(_, j)] =>
    Token.isChain_cons_of_tight rfl (Token.isChain_cons_of_tight rfl (isChain_tokens j))
  | (_, j) :: f :: rest =>
    Token.isChain_cons_of_tight rfl (Token.isChain_cons_of_tight rfl
      (Token.isChain_append_of_tight rfl (isChain_tokens j) (isChain_fieldTokens (f :: rest))))

end

mutual

theorem isPlain_of_mem_tokens :
    ∀ j : Json, j.isPlain = true → ∀ t ∈ j.tokens, t.isPlain = true
  | null, _ => by simp [tokens, Token.isPlain]
  | bool _, _ => by simp [tokens, Token.isPlain]
  | number (.whole _), _ => by simp [tokens, Token.isPlain]
  | number (.real _), h => by simp [isPlain] at h
  | string _, _ => by simp [tokens, Token.isPlain]
  | illegible, h => by simp [isPlain] at h
  | array items, h => by
    have hitems := isPlain_of_mem_itemTokens items h
    simpa [tokens, Token.isPlain, or_imp, forall_and] using hitems
  | object fields, h => by
    have hfields := isPlain_of_mem_fieldTokens fields h
    simpa [tokens, Token.isPlain, or_imp, forall_and] using hfields

theorem isPlain_of_mem_itemTokens :
    ∀ items : List Json, allPlain items = true → ∀ t ∈ itemTokens items, t.isPlain = true
  | [], _ => by simp [itemTokens]
  | [j], h => by
    have hj := isPlain_of_mem_tokens j (by simpa [allPlain] using h)
    simpa [itemTokens] using hj
  | j :: k :: rest, h => by
    rw [allPlain, Bool.and_eq_true] at h
    have hj := isPlain_of_mem_tokens j h.1
    have hrest := isPlain_of_mem_itemTokens (k :: rest) h.2
    simp only [itemTokens, List.mem_append, List.mem_cons, or_imp, forall_and]
    exact ⟨hj, by simp [Token.isPlain], hrest⟩

theorem isPlain_of_mem_fieldTokens :
    ∀ fields : List (String × Json), allFieldsPlain fields = true →
      ∀ t ∈ fieldTokens fields, t.isPlain = true
  | [], _ => by simp [fieldTokens]
  | [(k, j)], h => by
    have hj := isPlain_of_mem_tokens j (by simpa [allFieldsPlain] using h)
    simpa [fieldTokens, Token.isPlain] using hj
  | (k, j) :: f :: rest, h => by
    rw [allFieldsPlain, Bool.and_eq_true] at h
    have hj := isPlain_of_mem_tokens j h.1
    have hrest := isPlain_of_mem_fieldTokens (f :: rest) h.2
    simp only [fieldTokens, List.mem_append, List.mem_cons, or_imp, forall_and]
    exact ⟨by simp [Token.isPlain], by simp [Token.isPlain], hj, by simp [Token.isPlain], hrest⟩

end

/-! ## Reading -/

namespace Reader

variable {around : List Waiting} {rest : List Token}

theorem run_cons (r : Reader) (t : Token) (ts : List Token) :
    r.run (t :: ts) = (r.step t).bind fun m => m.run ts := rfl

/-- A key and a colon, and the value of the field is next. -/
theorem run_key (fields : List (Option String × Json)) (k : String) (ts : List Token) :
    (key fields around).run (.string (some k) :: .colon :: ts) =
      (value (.object fields (some k) :: around)).run ts := rfl

/-- Fields with legible keys, the latest first. -/
def written (fields : List (String × Json)) : List (Option String × Json) :=
  (fields.map fun f => (some f.1, f.2)).reverse

theorem written_concat (fields : List (String × Json)) (k : String) (j : Json) :
    written (fields ++ [(k, j)]) = (some k, j) :: written fields := by
  simp [written]

theorem closeObject_written (fields : List (String × Json)) :
    closeObject (written fields) = .object fields := by
  have hkeys : (fields.map fun f => (some f.1, f.2)).mapM
      (fun f : Option String × Json => f.1.map fun k => (k, f.2)) = some fields := by
    induction fields with
    | nil => rfl
    | cons f rest ih =>
      rw [List.map_cons, List.mapM_cons, ih]
      rfl
  rw [closeObject, written, List.reverse_reverse, hkeys]

/-- A value does not begin with the end of an array. -/
theorem exists_tokens (j : Json) : ∃ t ts, j.tokens.map Token.asRead = t :: ts ∧ t ≠ .endArray := by
  cases j with
  | number n =>
    cases n with
    | whole n => exact ⟨_, _, rfl, nofun⟩
    | real x => exact ⟨_, _, rfl, nofun⟩
  | null | bool | string | array | object | illegible => exact ⟨_, _, rfl, nofun⟩

theorem itemTokens_cons (j : Json) (items : List Json) :
    ∃ more, itemTokens (j :: items) = j.tokens ++ more := by
  cases items with
  | nil => exact ⟨[], (List.append_nil _).symm⟩
  | cons k rest => exact ⟨_, rfl⟩

/-- After the start of an array the first item is read as any other. -/
theorem run_firstItem (j : Json) (items : List Json) :
    (firstItem around).run ((itemTokens (j :: items)).map Token.asRead ++ rest) =
      (value (.array [] :: around)).run ((itemTokens (j :: items)).map Token.asRead ++ rest) := by
  obtain ⟨more, hmore⟩ := itemTokens_cons j items
  obtain ⟨t, ts, htokens, ht⟩ := exists_tokens j
  have hstep : (firstItem around).step t = (value (.array [] :: around)).step t := by
    cases t with
    | endArray => exact absurd rfl ht
    | _ => rfl
  rw [hmore, List.map_append, htokens, List.cons_append, List.cons_append, run_cons, run_cons,
    hstep]

/-- After the start of an object the first field is read as any other. -/
theorem run_firstKey (f : String × Json) (fields : List (String × Json)) :
    (firstKey around).run ((fieldTokens (f :: fields)).map Token.asRead ++ rest) =
      (key [] around).run ((fieldTokens (f :: fields)).map Token.asRead ++ rest) := by
  cases fields with
  | nil => rfl
  | cons g rest => rfl

mutual

/-- The tokens of a value are read as the value, whatever comes after them. -/
theorem run_tokens : ∀ (j : Json), j.isPlain = true → ∀ (around : List Waiting) (rest : List Token),
    (value around).run (j.tokens.map Token.asRead ++ rest) = (place j.asRead around).run rest
  | null, _, _, _ => rfl
  | bool _, _, _, _ => rfl
  | string _, _, _, _ => rfl
  | number (.whole n), _, around, rest => rfl
  | number (.real _), h, _, _ => by simp [isPlain] at h
  | illegible, h, _, _ => by simp [isPlain] at h
  | array [], _, _, _ => rfl
  | array (j :: items), h, around, rest => by
    have hitems := run_itemTokens (j :: items) (List.cons_ne_nil j items) h [] around rest
    have htokens : (array (j :: items)).tokens.map Token.asRead ++ rest = .beginArray ::
        ((itemTokens (j :: items)).map Token.asRead ++ .endArray :: rest) := by
      simp [tokens, Token.asRead]
    have hopen : (value around).step .beginArray = some (firstItem around) := rfl
    rw [htokens, run_cons, hopen, Option.bind_some, run_firstItem]
    exact hitems
  | object [], _, _, _ => rfl
  | object (f :: fields), h, around, rest => by
    have hfields := run_fieldTokens (f :: fields) (List.cons_ne_nil f fields) h [] around rest
    have htokens : (object (f :: fields)).tokens.map Token.asRead ++ rest = .beginObject ::
        ((fieldTokens (f :: fields)).map Token.asRead ++ .endObject :: rest) := by
      simp [tokens, Token.asRead]
    have hopen : (value around).step .beginObject = some (firstKey around) := rfl
    rw [htokens, run_cons, hopen, Option.bind_some, run_firstKey]
    exact hfields

theorem run_itemTokens : ∀ (items : List Json), items ≠ [] → allPlain items = true →
    ∀ (before : List Json) (around : List Waiting) (rest : List Token),
      (value (.array before :: around)).run
        ((itemTokens items).map Token.asRead ++ .endArray :: rest) =
          (place (.array (before.reverse ++ itemsAsRead items)) around).run rest
  | [], h, _, _, _, _ => absurd rfl h
  | [j], _, h, before, around, rest => by
    have hj := run_tokens j (by simpa [allPlain] using h) (.array before :: around)
      (.endArray :: rest)
    rw [itemTokens, hj]
    simp [place, run_cons, step, itemsAsRead]
  | j :: k :: items, _, h, before, around, rest => by
    rw [allPlain, Bool.and_eq_true] at h
    have hj := run_tokens j h.1 (.array before :: around)
    have hitems := run_itemTokens (k :: items) (List.cons_ne_nil k items) h.2 (j.asRead :: before)
      around rest
    have htokens : (itemTokens (j :: k :: items)).map Token.asRead ++ .endArray :: rest =
        j.tokens.map Token.asRead ++
          .comma :: ((itemTokens (k :: items)).map Token.asRead ++ .endArray :: rest) := by
      simp [itemTokens, Token.asRead]
    have hcomma : (place j.asRead (.array before :: around)).step .comma =
        some (value (.array (j.asRead :: before) :: around)) := rfl
    rw [htokens, hj, run_cons, hcomma, Option.bind_some, hitems]
    simp [itemsAsRead]

theorem run_fieldTokens : ∀ (fields : List (String × Json)), fields ≠ [] →
    allFieldsPlain fields = true →
    ∀ (before : List (String × Json)) (around : List Waiting) (rest : List Token),
      (key (written before) around).run
        ((fieldTokens fields).map Token.asRead ++ .endObject :: rest) =
          (place (.object (before ++ fieldsAsRead fields)) around).run rest
  | [], h, _, _, _, _ => absurd rfl h
  | [(k, j)], _, h, before, around, rest => by
    have hj := run_tokens j (by simpa [allFieldsPlain] using h)
      (.object (written before) (some k) :: around) (.endObject :: rest)
    have htokens : (fieldTokens [(k, j)]).map Token.asRead ++ .endObject :: rest =
        .string (some k) :: .colon :: (j.tokens.map Token.asRead ++ .endObject :: rest) := by
      simp [fieldTokens, Token.asRead]
    have hclose : (place j.asRead (.object (written before) (some k) :: around)).step .endObject =
        some (place (.object (before ++ [(k, j.asRead)])) around) := by
      rw [← closeObject_written, written_concat]
      rfl
    rw [htokens, run_key, hj, run_cons, hclose, Option.bind_some]
    rfl
  | (k, j) :: g :: fields, _, h, before, around, rest => by
    rw [allFieldsPlain, Bool.and_eq_true] at h
    have hj := run_tokens j h.1 (.object (written before) (some k) :: around)
    have hfields := run_fieldTokens (g :: fields) (List.cons_ne_nil g fields) h.2
      (before ++ [(k, j.asRead)]) around rest
    have htokens : (fieldTokens ((k, j) :: g :: fields)).map Token.asRead ++ .endObject :: rest =
        .string (some k) :: .colon :: (j.tokens.map Token.asRead ++
          .comma :: ((fieldTokens (g :: fields)).map Token.asRead ++ .endObject :: rest)) := by
      simp [fieldTokens, Token.asRead]
    have hcomma : (place j.asRead (.object (written before) (some k) :: around)).step .comma =
        some (key (written (before ++ [(k, j.asRead)])) around) := by
      rw [written_concat]
      rfl
    rw [htokens, run_key, hj, run_cons, hcomma, Option.bind_some, hfields]
    simp [fieldsAsRead]

end

end Reader

/-- However blanks are set, the text of a value is read as that value. -/
theorem ofText?_of_spaced {j : Json} {cs : List Char} (hplain : j.isPlain = true)
    (h : Spaced j.tokens cs) : ofText? (String.ofList cs) = some j.asRead := by
  have htokens : tokens? cs = some (j.tokens.map Token.asRead) :=
    tokens?_of_spaced (isPlain_of_mem_tokens j hplain) (isChain_tokens j) h
  have hrun := Reader.run_tokens j hplain [] []
  rw [List.append_nil] at hrun
  rw [ofText?, String.toList_ofList, htokens, Option.bind_some, ofTokens?, hrun]
  rfl

/-- Any blanks may be set before each token. -/
theorem spaced_flatMap {blanks : List Char} (h : ∀ c ∈ blanks, Lexer.isBlank c = true)
    (ts : List Token) : Spaced ts (ts.flatMap fun t => blanks ++ t.text) := by
  induction ts with
  | nil => exact fun c hc => absurd hc List.not_mem_nil
  | cons t rest ih => exact ⟨blanks, _, h, by simp, ih⟩

theorem spaced_text (ts : List Token) : Spaced ts (ts.flatMap Token.text) :=
  spaced_flatMap (fun _ hc => absurd hc List.not_mem_nil) ts

end Json
end Unrouted
