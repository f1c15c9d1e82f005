import ExprLang.Numeral
import ExprLang.Operator
import ExprLang.Tokenization
import ExprLang.Proofs.Agreement

/-!
# Scanning

What a text is cut into, seen as words: blanks and comments are gone, and places do not
matter. Pieces of text may be scanned apart where the first of them cannot go on into
the second, as before a break.
-/
namespace ExprLang

/-- The class and value of a token. -/
abbrev Word := TokenKind × String

namespace Word

def mark (c : Char) : Word := (.punctuation, String.singleton c)

def keyword (word : String) : Word := (.keyword, word)

def name (name : String) : Word := (.identifier, name)

def operator (operator : String) : Word := (.operator, operator)

end Word

/-- The words of a text, and the text from the first place where no lexeme begins. -/
def scan (text : List Char) : List Word × List Char :=
  ((lexemes text).1.filterMap Lexeme.reading, (lexemes text).2)

@[simp] theorem scan_nil : scan [] = ([], []) := by
  rw [scan, lexemes_of_none rfl]
  rfl

theorem scan_of_some {text after : List Char} {l : Lexeme}
    (h : Lexeme.next? text = some (l, after)) :
    scan text = (l.reading.toList ++ (scan after).1, (scan after).2) := by
  rw [scan, lexemes_of_some h]
  cases hl : l.reading <;> simp [scan, hl]

/-- What a text begins with where a lexeme is opened. -/
def Opening.Begins (c : Char) (next : Option Char) : Opening → Prop
  | run .word => isNameStart c = true
  | run .digits => c.isDigit = true
  | run .blanks => isBlank c = true
  | run .comment => c = '/' ∧ next = some '/'
  | run .mark => isMarkChar c = true
  | run .operator => isOperatorChar c = true ∧ ¬(c = '/' ∧ next = some '/')
  | quote kind => c = '"' ∧ kind = .string ∨ c = '\'' ∧ kind = .character

theorem Opening.begins_of_eq_some {c : Char} {next : Option Char} {o : Opening}
    (h : Opening.of? c next = some o) : o.Begins c next := by
  unfold Opening.of? at h
  split_ifs at h <;> obtain rfl := Option.some.inj h <;> simp_all [Begins]

theorem Run.continues_takeWhile (r : Run) (text : List Char) :
    ∀ x ∈ text.takeWhile r.continues, r.continues x = true :=
  List.all_eq_true.1 List.all_takeWhile

theorem Run.continues_dropWhile (r : Run) (text : List Char) :
    ∀ x ∈ (text.dropWhile r.continues).head?, r.continues x = false := by
  intro x hx
  have hdrop := List.head?_dropWhile_not r.continues text
  rwa [Option.mem_def.1 hx] at hdrop

/-- A run ends before a character that does not go on with it. -/
theorem next?_run {r : Run} {c : Char} {cs rest : List Char}
    (ho : Opening.of? c (cs ++ rest).head? = some (.run r))
    (hcs : ∀ x ∈ cs, r.continues x = true) (hrest : ∀ x ∈ rest.head?, r.continues x = false) :
    Lexeme.next? (c :: cs ++ rest) = some (r.lexeme (c :: cs), rest) := by
  have htake : rest.takeWhile r.continues = [] := by
    cases rest with
    | nil => rfl
    | cons x xs => simp [hrest x (by simp)]
  have hdrop : rest.dropWhile r.continues = rest := by
    cases rest with
    | nil => rfl
    | cons x xs => simp [hrest x (by simp)]
  rw [List.cons_append, Lexeme.next?, ho, Option.bind_some, Lexeme.cut,
    List.takeWhile_append_of_pos hcs, List.dropWhile_append_of_pos hcs, htake, hdrop,
    List.append_nil]

/-- A character that ends every run before it, other than blanks and comments. -/
def isBreak (c : Char) : Bool := c == ' ' || isMarkChar c

/-- A text that is empty or begins with a break. -/
def Breaks (text : List Char) : Prop := ∀ c ∈ text.head?, isBreak c = true

theorem continues_of_isBreak {c : Char} (h : isBreak c = true) :
    Run.word.continues c = false ∧ Run.digits.continues c = false ∧
      Run.operator.continues c = false := by
  simp only [isBreak, isMarkChar, Bool.or_eq_true, beq_iff_eq, List.contains_iff_mem,
    List.mem_cons, List.not_mem_nil, or_false] at h
  rcases h with rfl | rfl | rfl | rfl | rfl | rfl | rfl | rfl | rfl <;> decide

namespace Breaks

variable {rest : List Char}

theorem nil : Breaks [] := by simp [Breaks]

theorem cons {c : Char} (h : isBreak c = true) : Breaks (c :: rest) := by simpa [Breaks] using h

end Breaks

theorem code_of_isNameStart {c : Char} (h : isNameStart c = true) :
    65 ≤ c.toNat ∧ c.toNat ≤ 122 := by
  have hcode : (decide ('A'.val ≤ c.val ∧ c.val ≤ 'Z'.val) ||
      decide ('a'.val ≤ c.val) && decide (c.val ≤ 'z'.val) || c == '_') = true := h
  simp only [Bool.or_eq_true, Bool.and_eq_true, decide_eq_true_eq, beq_iff_eq,
    UInt32.le_iff_toNat_le] at hcode
  rcases hcode with (⟨hlo, hhi⟩ | ⟨hlo, hhi⟩) | rfl
  · have : 65 ≤ c.toNat ∧ c.toNat ≤ 90 := ⟨hlo, hhi⟩
    omega
  · have : 97 ≤ c.toNat ∧ c.toNat ≤ 122 := ⟨hlo, hhi⟩
    omega
  · decide

theorem code_of_isDigit {c : Char} (h : c.isDigit = true) : 48 ≤ c.toNat ∧ c.toNat ≤ 57 :=
  Char.isDigit_iff_toNat.1 h

theorem isBlank_newline : isBlank '\n' = true := by decide

theorem code_of_isBlank {c : Char} (h : isBlank c = true) : c.toNat ≤ 32 ∨ 133 ≤ c.toNat := by
  obtain ⟨r, hr, hlo, hhi⟩ := CharTable.contains_iff.1 h
  have htable : ∀ r ∈ whiteSpace, r.2 ≤ 32 ∨ 133 ≤ r.1 := by decide
  have := htable r hr
  omega

/-- Blanks begin no other lexeme. -/
theorem opening_of_isBlank {c : Char} (h : isBlank c = true) (next : Option Char) :
    Opening.of? c next = some (.run .blanks) := by
  have hcode := code_of_isBlank h
  have hname : ¬isNameStart c = true := fun hn => by
    have := code_of_isNameStart hn
    omega
  have hdigit : ¬c.isDigit = true := fun hd => by
    have := code_of_isDigit hd
    omega
  simp [Opening.of?, hname, hdigit, h]

theorem next?_blank {c : Char} (h : isBlank c = true) (text : List Char) :
    Lexeme.next? (c :: text) =
      some (Run.blanks.lexeme (c :: text.takeWhile isBlank), text.dropWhile isBlank) := by
  rw [Lexeme.next?, opening_of_isBlank h, Option.bind_some]
  rfl

/-- A text is cut from the left, blanks one at a time and other lexemes as a whole, up to where
no lexeme begins. -/
@[elab_as_elim]
theorem cutting_induction {motive : List Char → Prop}
    (stop : ∀ text, Lexeme.next? text = none → motive text)
    (blank : ∀ c text, isBlank c = true → motive text → motive (c :: text))
    (lexeme : ∀ c text l after, isBlank c = false →
      Lexeme.next? (c :: text) = some (l, after) → motive after → motive (c :: text))
    (text : List Char) : motive text := by
  induction hn : text.length using Nat.strongRecOn generalizing text with
  | ind n ih =>
    subst hn
    cases hl : Lexeme.next? text with
    | none => exact stop text hl
    | some p =>
      cases text with
      | nil => simp [Lexeme.next?] at hl
      | cons c text =>
        by_cases hc : isBlank c = true
        · exact blank c text hc (ih text.length (by simp) text rfl)
        · exact lexeme c text p.1 p.2 (by simpa using hc) hl
            (ih p.2.length (Lexeme.length_lt_of_next? hl) p.2 rfl)

/-- Blanks stand for nothing. -/
theorem scan_blank {c : Char} (h : isBlank c = true) (text : List Char) :
    scan (c :: text) = scan text := by
  have hskip : ∀ {x : Char} (xs : List Char), isBlank x = true →
      scan (x :: xs) = scan (xs.dropWhile isBlank) := fun {x} xs hx => by
    simpa [Run.lexeme, Run.reading] using scan_of_some (next?_blank hx xs)
  rw [hskip text h]
  cases text with
  | nil => rfl
  | cons x xs =>
    by_cases hx : isBlank x = true
    · rw [hskip xs hx, List.dropWhile_cons_of_pos hx]
    · rw [List.dropWhile_cons_of_neg hx]

/-- The words of a text are those of lexemes that begin some text. -/
theorem exists_next?_of_mem_scan {text : List Char} {w : Word} (h : w ∈ (scan text).1) :
    ∃ text l after, Lexeme.next? text = some (l, after) ∧ l.reading = some w := by
  induction text using cutting_induction with
  | stop text hl => simp [scan, lexemes_of_none hl] at h
  | blank c text hc ih => exact ih (scan_blank hc text ▸ h)
  | lexeme c text l after _ hl ih =>
    rw [scan_of_some hl] at h
    rcases List.mem_append.1 h with h | h
    · exact ⟨_, l, after, hl, Option.mem_toList.1 h⟩
    · exact ih h

theorem opening_of_isMarkChar {c : Char} (h : isMarkChar c = true) (next : Option Char) :
    Opening.of? c next = some (.run .mark) := by
  simp only [isMarkChar, List.contains_iff_mem, List.mem_cons, List.not_mem_nil, or_false] at h
  rcases h with rfl | rfl | rfl | rfl | rfl | rfl | rfl | rfl <;> rfl

theorem isDigit_of_isMarkChar {c : Char} (h : isMarkChar c = true) : c.isDigit = false := by
  simp only [isMarkChar, List.contains_iff_mem, List.mem_cons, List.not_mem_nil, or_false] at h
  rcases h with rfl | rfl | rfl | rfl | rfl | rfl | rfl | rfl <;> rfl

/-- A mark stands alone. -/
theorem next?_mark {c : Char} (h : isMarkChar c = true) (text : List Char) :
    Lexeme.next? (c :: text) = some (Run.mark.lexeme [c], text) := by
  have hnone : ∀ x ∈ ([] : List Char), Run.mark.continues x = true := by simp
  exact next?_run (opening_of_isMarkChar h _) hnone fun _ _ => rfl

theorem scan_mark {c : Char} (h : isMarkChar c = true) (text : List Char) :
    scan (c :: text) = (Word.mark c :: (scan text).1, (scan text).2) := by
  simpa [Run.lexeme, Run.reading, Word.mark] using scan_of_some (next?_mark h text)

/-- A text stands for words, whatever comes after it but does not go on with its last one. -/
def Writes (text : List Char) (ws : List Word) : Prop :=
  ∀ rest, Breaks rest → scan (text ++ rest) = (ws ++ (scan rest).1, (scan rest).2)

namespace Writes

variable {text text' : List Char} {ws ws' : List Word}

theorem nil : Writes [] [] := fun _ _ => rfl

theorem append (h : Writes text ws) (h' : Writes text' ws') (hb : text' ≠ [] → Breaks text') :
    Writes (text ++ text') (ws ++ ws') := by
  intro rest hrest
  have hbreaks : Breaks (text' ++ rest) := by
    cases text' with
    | nil => exact hrest
    | cons c cs => simpa [Breaks] using hb (List.cons_ne_nil c cs)
  rw [List.append_assoc, h _ hbreaks, h' rest hrest]
  simp

theorem blank {c : Char} (hc : isBlank c = true) (h : Writes text ws) : Writes (c :: text) ws := by
  intro rest hrest
  rw [List.cons_append, scan_blank hc, h rest hrest]

theorem mark {c : Char} (hc : isMarkChar c = true) (h : Writes text ws) :
    Writes (c :: text) (.mark c :: ws) := by
  intro rest hrest
  rw [List.cons_append, scan_mark hc, h rest hrest]
  rfl

/-- A run on its own. -/
theorem run {r : Run} {c : Char} {cs : List Char} {w : Word}
    (ho : ∀ rest, Breaks rest → Opening.of? c (cs ++ rest).head? = some (.run r))
    (hcs : ∀ x ∈ cs, r.continues x = true)
    (hr : ∀ x : Char, isBreak x = true → r.continues x = false)
    (hw : r.reading (String.ofList (c :: cs)) = some w) : Writes (c :: cs) [w] := by
  intro rest hrest
  rw [scan_of_some (next?_run (ho rest hrest) hcs fun x hx => hr x (hrest x hx)), Run.lexeme, hw]
  rfl

end Writes

theorem opening_of_isNameStart {c : Char} (h : isNameStart c = true) (next : Option Char) :
    Opening.of? c next = some (.run .word) := by
  simp [Opening.of?, h]

theorem opening_of_isDigit {c : Char} (h : c.isDigit = true) (next : Option Char) :
    Opening.of? c next = some (.run .digits) := by
  have hstart : ¬isNameStart c = true := fun hn => by
    have := code_of_isNameStart hn
    have := code_of_isDigit h
    omega
  simp [Opening.of?, h, hstart]

/-- Letters, digits and underscores that no digit begins. -/
def isWordText (s : String) : Bool :=
  match s.toList with
  | [] => false
  | c :: cs => isNameStart c && cs.all isNameChar

/-- A word that is no keyword. -/
def isName (s : String) : Bool := isWordText s && !isKeyword s

/-- A word is read as a whole, as a keyword or as a name. -/
theorem writes_word {s : String} (h : isWordText s = true) :
    Writes s.toList [(if isKeyword s then .keyword else .identifier, s)] := by
  unfold isWordText at h
  split at h
  · simp at h
  · next c cs hs =>
    simp only [Bool.and_eq_true, List.all_eq_true] at h
    obtain rfl : String.ofList (c :: cs) = s := by rw [← hs, String.ofList_toList]
    rw [String.toList_ofList]
    exact .run (fun _ _ => opening_of_isNameStart h.1 _) h.2
      (fun _ hx => (continues_of_isBreak hx).1) rfl

theorem writes_name {s : String} (h : isName s = true) : Writes s.toList [.name s] := by
  simp only [isName, Bool.and_eq_true, Bool.not_eq_true'] at h
  have hw := writes_word h.1
  rw [h.2] at hw
  exact hw

theorem writes_keyword {w : String} (h : w ∈ keywords) : Writes w.toList [.keyword w] := by
  have hall : ∀ w ∈ keywords, isWordText w = true ∧ isKeyword w = true := by decide +kernel
  have hw := writes_word (hall w h).1
  rw [(hall w h).2] at hw
  exact hw

theorem writes_digits {s : String} (hne : s.toList ≠ [])
    (h : ∀ c ∈ s.toList, c.isDigit = true) : Writes s.toList [(.number, s)] := by
  obtain ⟨c, cs, hs⟩ := List.exists_cons_of_ne_nil hne
  obtain rfl : String.ofList (c :: cs) = s := by rw [← hs, String.ofList_toList]
  rw [String.toList_ofList] at h ⊢
  obtain ⟨hc, hcs⟩ := List.forall_mem_cons.1 h
  exact .run (fun _ _ => opening_of_isDigit hc _) hcs
    (fun _ hx => (continues_of_isBreak hx).2.1) rfl

theorem writes_numeral {n : Int32} (h : 0 ≤ n.toInt) :
    Writes (numeral n).toList [(.number, numeral n)] := by
  obtain ⟨k, hk⟩ := Int.eq_ofNat_of_zero_le h
  have ht : (numeral n).toList = Nat.toDigits 10 k := by
    rw [numeral, hk]
    exact Nat.toList_repr
  refine writes_digits (ht ▸ Nat.toDigits_ne_nil) fun x hx => ?_
  exact Nat.isDigit_of_mem_toDigits (by decide) (by decide) (ht ▸ hx)

theorem isNameChar_of_isNameStart {c : Char} (h : isNameStart c = true) :
    isNameChar c = true := by
  simp only [isNameStart, Bool.or_eq_true] at h
  rcases h with h | h <;> simp [isNameChar, Char.isAlphanum, h]

theorem isNameChar_of_isDigit {c : Char} (h : c.isDigit = true) : isNameChar c = true := by
  simp [isNameChar, Char.isAlphanum, h]

theorem isNameChar_of_isBlank {c : Char} (h : isBlank c = true) : isNameChar c = false := by
  refine Bool.eq_false_iff.2 fun hn => ?_
  have hcode := code_of_isBlank h
  have hcases : isNameStart c = true ∨ c.isDigit = true := by
    simp only [isNameChar, Char.isAlphanum, isNameStart, Bool.or_eq_true] at hn ⊢
    tauto
  rcases hcases with hs | hd
  · have := code_of_isNameStart hs
    omega
  · have := code_of_isDigit hd
    omega

/-- The characters of operators stand nowhere else but in comments and literals. -/
theorem other_of_isOperatorChar {c : Char} (h : isOperatorChar c = true) :
    isNameChar c = false ∧ isBlank c = false ∧ isMarkChar c = false ∧ c ≠ '"' ∧ c ≠ '\'' := by
  simp only [isOperatorChar, List.contains_iff_mem, List.mem_cons, List.not_mem_nil,
    or_false] at h
  rcases h with rfl | rfl | rfl | rfl | rfl | rfl | rfl | rfl | rfl | rfl | rfl <;> decide

theorem other_of_isBlank {c : Char} (h : isBlank c = true) :
    c.isDigit = false ∧ isOperatorChar c = false := by
  refine ⟨Bool.eq_false_iff.2 fun hd => ?_, Bool.eq_false_iff.2 fun ho => ?_⟩
  · have := code_of_isBlank h
    have := code_of_isDigit hd
    omega
  · exact Bool.false_ne_true ((other_of_isOperatorChar ho).2.1.symm.trans h)

theorem opening_of_isOperatorChar {c : Char} {next : Option Char} (h : isOperatorChar c = true)
    (hn : ¬(c = '/' ∧ next = some '/')) : Opening.of? c next = some (.run .operator) := by
  obtain ⟨hname, hblank, hmark, hstring, hcharacter⟩ := other_of_isOperatorChar h
  have hstart : ¬isNameStart c = true := fun hs => by
    simp [isNameChar_of_isNameStart hs] at hname
  have hdigit : ¬c.isDigit = true := fun hd => by simp [isNameChar_of_isDigit hd] at hname
  simp [Opening.of?, h, hn, hstart, hdigit, hblank, hmark, hstring, hcharacter]

/-- Operator characters that do not begin a comment. -/
def isOperatorText (s : String) : Bool :=
  match s.toList with
  | [] => false
  | c :: cs => (c :: cs).all isOperatorChar && !(c == '/' && cs.head? == some '/')

theorem isOperatorText_iff {s : String} : isOperatorText s = true ↔
    s.toList ≠ [] ∧ (∀ c ∈ s.toList, isOperatorChar c = true) ∧ ¬['/', '/'] <+: s.toList := by
  unfold isOperatorText
  split
  · next h => simp [h]
  · next c cs h =>
    have hslashes : ['/', '/'] <+: c :: cs ↔ (c == '/' && cs.head? == some '/') = true := by
      cases cs <;> simp [@eq_comm _ '/']
    rw [h, hslashes, Bool.and_eq_true, List.all_eq_true, Bool.not_eq_true', Bool.not_eq_true]
    simp

theorem writes_operatorText {s : String} (h : isOperatorText s = true) :
    Writes s.toList [.operator s] := by
  unfold isOperatorText at h
  split at h
  · simp at h
  · next c cs hs =>
    simp only [Bool.and_eq_true, List.all_eq_true, List.forall_mem_cons] at h
    obtain ⟨⟨hc, hcs⟩, hn⟩ := h
    obtain rfl : String.ofList (c :: cs) = s := by rw [← hs, String.ofList_toList]
    rw [String.toList_ofList]
    refine .run (r := .operator) (fun rest hrest => opening_of_isOperatorChar hc ?_) hcs
      (fun _ hx => (continues_of_isBreak hx).2.2) rfl
    rintro ⟨rfl, hnext⟩
    cases cs with
    | nil => exact absurd (hrest '/' (by simpa using hnext)) (by decide)
    | cons x xs => simp_all

theorem writes_operator {s : String} {strength : ℕ} (h : precedence? s = some strength) :
    Writes s.toList [.operator s] := by
  have hall : ∀ o ∈ precedences, isOperatorText o.1 = true := by decide +kernel
  obtain ⟨l, l', heq, -⟩ := List.lookup_eq_some_iff.1 h
  exact writes_operatorText (hall (s, strength) (by simp [heq]))

/-- A text between quotes. A backslash protects the character behind it, which is no newline,
and no quote is left unprotected. -/
inductive IsBody (quote : Char) : List Char → Prop
  | nil : IsBody quote []
  | plain {c : Char} {body : List Char} (hq : c ≠ quote) (hb : c ≠ '\\') (h : IsBody quote body) :
    IsBody quote (c :: body)
  | escaped {c : Char} {body : List Char} (hc : c ≠ '\n') (h : IsBody quote body) :
    IsBody quote ('\\' :: c :: body)

theorem IsBody.append {quote : Char} {front back : List Char} (h : IsBody quote front)
    (h' : IsBody quote back) : IsBody quote (front ++ back) := by
  induction h with
  | nil => exact h'
  | plain hq hb _ ih => exact .plain hq hb ih
  | escaped hc _ ih => exact .escaped hc ih

/-- A text may be written between quotes if each of its characters may. -/
theorem IsBody.flatMap {quote : Char} {f : Char → List Char} (text : List Char)
    (h : ∀ c, IsBody quote (f c)) : IsBody quote (text.flatMap f) := by
  induction text with
  | nil => exact .nil
  | cons c text ih => exact (h c).append ih

theorem isBody_of_enclosed {quote : Char} {text body after : List Char}
    (h : enclosed quote text = some (body, after)) : IsBody quote body := by
  fun_induction enclosed quote text generalizing body after with
  | case1 => simp at h
  | case2 => simp at h
  | case3 c text hc ih =>
    obtain ⟨⟨b, a⟩, hb, heq⟩ := Option.map_eq_some_iff.1 h
    obtain ⟨rfl, rfl⟩ := Prod.mk.inj heq
    exact .escaped hc (ih hb)
  | case4 text =>
    obtain ⟨rfl, rfl⟩ := Prod.mk.inj (Option.some.inj h)
    exact .nil
  | case5 c text hback hc ih =>
    obtain ⟨⟨b, a⟩, hb, heq⟩ := Option.map_eq_some_iff.1 h
    obtain ⟨rfl, rfl⟩ := Prod.mk.inj heq
    have hne : c ≠ '\\' := by
      rintro rfl
      cases text with
      | nil => simp [enclosed] at hb
      | cons x xs => exact hback x xs rfl rfl
    exact .plain hc hne (ih hb)

/-- The first quote behind a body is the one that closes it. -/
theorem IsBody.enclosed {quote : Char} {body : List Char} (h : IsBody quote body)
    (hq : quote ≠ '\\') (rest : List Char) :
    enclosed quote (body ++ quote :: rest) = some (body, rest) := by
  induction h with
  | nil => simp [ExprLang.enclosed, hq]
  | plain hc hb _ ih =>
    rw [List.cons_append, enclosed.eq_3 _ _ _ (by simp [hb]), if_neg hc, ih]
    rfl
  | escaped hc _ ih => simp [ExprLang.enclosed, hc, ih]

section Literals

variable {quote : Char} (hq : quote = '"' ∨ quote = '\'')

include hq

/-- A character is written by itself or by a letter behind a backslash that names it. -/
theorem escapeChar_eq (c : Char) : escapeChar quote c = [c] ∧ c ≠ '\\' ∧ c ≠ quote ∨
    ∃ d, escapeChar quote c = ['\\', d] ∧ namedEscape d = some c ∧ d ≠ '\n' := by
  unfold escapeChar
  split
  · exact .inr ⟨'n', rfl, rfl, by decide⟩
  · exact .inr ⟨'t', rfl, rfl, by decide⟩
  · exact .inr ⟨'r', rfl, rfl, by decide⟩
  · exact .inr ⟨'0', rfl, rfl, by decide⟩
  · exact .inr ⟨'\\', rfl, rfl, by decide⟩
  · next hc =>
    split_ifs with hcq
    · subst hcq
      rcases hq with rfl | rfl
      · exact .inr ⟨'"', rfl, rfl, by decide⟩
      · exact .inr ⟨'\'', rfl, rfl, by decide⟩
    · exact .inl ⟨rfl, hc, hcq⟩

theorem isBody_escape (text : List Char) : IsBody quote (escape quote text) := by
  refine IsBody.flatMap text fun c => ?_
  rcases escapeChar_eq hq c with ⟨he, hc, hcq⟩ | ⟨d, he, -, hd⟩
  · rw [he]
    exact .plain hcq hc .nil
  · rw [he]
    exact .escaped hd .nil

/-- A body that was written is read up to the quote behind it. -/
theorem enclosed_escape (text rest : List Char) :
    enclosed quote (escape quote text ++ quote :: rest) = some (escape quote text, rest) :=
  (isBody_escape hq text).enclosed (by rcases hq with rfl | rfl <;> decide) rest

/-- An escaped body stands for the text that it was made from. -/
theorem unescape_escape (text : List Char) : unescape (escape quote text) = text := by
  induction text with
  | nil => simp [escape, unescape]
  | cons c text ih =>
    rw [escape, List.flatMap_cons, ← escape]
    rcases escapeChar_eq hq c with ⟨he, hc, -⟩ | ⟨d, he, hd, -⟩
    · rw [he, List.singleton_append, unescape.eq_3 _ _ (by simp [hc]), ih]
    · rw [he, List.cons_append, List.singleton_append, unescape, hd, ih]

end Literals

/-- A literal stands for its text, whatever comes after it. -/
theorem writes_literal {quote : Char} {kind : TokenKind}
    (ho : ∀ next, Opening.of? quote next = some (.quote kind))
    (hq : quote = '"' ∨ quote = '\'') (s : String) :
    Writes (literal quote s).toList [(kind, s)] := by
  intro rest _
  have hnext : Lexeme.next? ((literal quote s).toList ++ rest) =
      some (Lexeme.quoted kind quote (escape quote s.toList), rest) := by
    simp [Lexeme.next?, ho, Lexeme.cut, enclosed_escape hq]
  rw [scan_of_some hnext, Lexeme.quoted, unescape_escape hq, String.ofList_toList]
  rfl

theorem writes_string (s : String) : Writes (literal '"' s).toList [(.string, s)] :=
  writes_literal (fun _ => rfl) (.inl rfl) s

theorem writes_character (s : String) : Writes (literal '\'' s).toList [(.character, s)] :=
  writes_literal (fun _ => rfl) (.inr rfl) s

end ExprLang
