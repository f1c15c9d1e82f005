import ExprLang.Proofs.Blocks
import ExprLang.Proofs.Seams

/-!
# Concatenation of sources

A source that is a program goes on, behind a semicolon on a line of its own, with another
source as if that stood alone: with its statements, or with its error further on.
-/
namespace ExprLang

open ExprLang.Parser Cursor

section Statements

variable {ts : List Token} {os : List (Option Expr)} {e u : Cursor}

/-- Statements up to the end of the input are read up to a semicolon instead, if there is
none at their end already. Then the ones behind that semicolon follow. -/
theorem Reads.repeated_push (h : Reads (.statements os) (push ts e) e) (he : e.atEnd = true)
    (hts : ts ≠ []) (hlast : ∀ t ∈ ts.getLast?, t.isMark ';' = false)
    (hu : u.current.isMark ';' = true) :
    repeated (Rule.statement Parser.expression) (push ts u) =
      ((os ++ ·) <$> repeated (Rule.statement Parser.expression)) u.next := by
  induction os generalizing ts with
  | nil => exact absurd rfl (h.ne_nil_of_statements hts)
  | cons o os ih =>
    obtain ⟨us, ho, hon⟩ := (reads_statements_cons_iff he).1 h
    have hou := (Reads.exchange_iff (.of_isEof he) (.of_isMark hu (by decide))).1 ho
    have hsemi : (push us u).current.isMark ';' = true := by
      rcases hon with ⟨rfl, -⟩ | ⟨x, us, rfl, hx, -⟩
      · exact hu
      · exact hx
    have hstatement : Rule.statement Parser.expression (push ts u) =
        .ok (some o) (push us u).next := by
      refine Rule.statement_eq_ok.2 (.inr ⟨hou.atEnd_eq_false, o, _, hou.run, rfl, .inr ?_⟩)
      exact ⟨by simp [Cursor.atEnd, Token.isEof, (Token.isMark_iff.1 hsemi).1], hsemi, rfl⟩
    rw [repeated_apply (Rule.takesBelow_statement takes_expression) Rule.stopsAtEnd_statement
      (Nat.lt_succ_self _), bind_apply, hstatement]
    rcases hon with ⟨rfl, rfl⟩ | ⟨x, us, rfl, hx, hos⟩
    · rfl
    · obtain ⟨vs, hvs⟩ := ho.exists_push_of_expression
      rw [push_push, push_inj] at hvs
      have hus : us ≠ [] := by
        rintro rfl
        exact Bool.false_ne_true ((hlast x (by simp [hvs])).symm.trans hx)
      have hrest := ih hos hus fun t ht => hlast t (by
        obtain ⟨y, ys, rfl⟩ := List.exists_cons_of_ne_nil hus
        simpa [hvs, List.getLast?_cons_cons] using ht)
      simp only [next_push_cons, map_apply, hrest]
      cases repeated (Rule.statement Parser.expression) u.next <;> rfl

/-- The program of statements before a semicolon and of what follows it. -/
theorem Reads.program_push (h : Reads (.statements os) (push ts e) e) (he : e.atEnd = true)
    (hts : ts ≠ []) (hlast : ∀ t ∈ ts.getLast?, t.isMark ';' = false)
    (hu : u.current.isMark ';' = true) :
    Parser.program (push ts u) =
      ((fun p => ⟨os.reduceOption ++ p.body⟩) <$> Parser.program) u.next := by
  have hrun := h.repeated_push he hts hlast hu
  simp only [Parser.program, Rule.program, map_eq_pure_bind, bind_apply, hrun]
  cases repeated (Rule.statement Parser.expression) u.next with
  | ok os' c => simp [pure_apply, List.reduceOption_append]
  | error fault c => rfl

end Statements

/-- The semicolon on the line behind a source of `offset` bytes. -/
def seamToken (file : String) (offset : ℕ) : Token :=
  ⟨.punctuation, ";", .ofNat (offset + 1), .ofNat (offset + 2), file⟩

theorem isMark_seamToken (file : String) (offset : ℕ) :
    (seamToken file offset).isMark ';' = true := by
  simp [seamToken, Token.isMark, Token.firstChar]

section Texts

variable {front back : List Char} {file : String}

theorem width_append_semicolon (front back : List Char) :
    width (front ++ '\n' :: ';' :: '\n' :: back) = width back + (width front + 3) := by
  have hsize : '\n'.utf8Size = 1 ∧ ';'.utf8Size = 1 := by decide
  simp only [width_append, width_cons, hsize]
  omega

/-- The second text is cut as it is alone, behind the tokens of the first one. -/
theorem tokensFrom_append_semicolon (h : (tokensFrom file 0 front).2 = []) (back : List Char) :
    tokensFrom file 0 (front ++ '\n' :: ';' :: '\n' :: back) =
      ((tokensFrom file 0 front).1 ++ seamToken file (width front) ::
        (tokensFrom file 0 back).1.map (Token.shift (width front + 3)),
        (tokensFrom file 0 back).2) := by
  have hmark : isMarkChar ';' = true := by decide
  have hsize : '\n'.utf8Size = 1 ∧ ';'.utf8Size = 1 := by decide
  have hoffset : 0 + width front + '\n'.utf8Size + ';'.utf8Size + '\n'.utf8Size =
      0 + (width front + 3) := by
    rw [hsize.1, hsize.2]
    omega
  rw [tokensFrom_append_newline h, tokensFrom_blank isBlank_newline, tokensFrom_mark hmark,
    tokensFrom_blank isBlank_newline, hoffset, tokensFrom_shift]
  simp [seamToken, hsize, Nat.add_assoc]

/-- The first character of the second text that begins no lexeme is that of the whole. -/
theorem extent_append_semicolon (h : (tokensFrom file 0 front).2 = []) (back : List Char) :
    extent (lexemes (front ++ '\n' :: ';' :: '\n' :: back)).1 =
      extent (lexemes back).1 + (width front + 3) := by
  have hleft := congrArg Prod.snd (tokensFrom_append_semicolon h back)
  have hwhole := extent_lexemes_add (front ++ '\n' :: ';' :: '\n' :: back)
  have hback := extent_lexemes_add back
  simp only [tokensFrom] at hleft
  rw [hleft, width_append_semicolon] at hwhole
  omega

/-- The cursor at the first token of a text. -/
def Cursor.ofText (file : String) (text : List Char) : Cursor :=
  ⟨(tokensFrom file 0 text).1, "EOF", .ofNat (width text), .ofNat (width text), file⟩

theorem ofText_append_semicolon (h : (tokensFrom file 0 front).2 = []) :
    ofText file (front ++ '\n' :: ';' :: '\n' :: back) = push (tokensFrom file 0 front).1
      (push [seamToken file (width front)] ((ofText file back).shift (width front + 3))) := by
  rw [ofText, width_append_semicolon, tokensFrom_append_semicolon h]
  simp [ofText, push, Cursor.shift, Span.shift, UInt32.ofNat_add]

end Texts

section Sources

variable {source file streamFile : String}

theorem ofSource_eq_ok_iff_program {p : Program} :
    Program.ofSource source file streamFile = .ok p ↔ (tokensFrom file 0 source.toList).2 = [] ∧
      ∃ c, Parser.program (ofText file source.toList) = .ok p c := by
  rw [Program.ofSource_eq_ok]
  constructor
  · rintro ⟨tokens, ht, hp⟩
    obtain ⟨hleft, rfl⟩ := tokenize_eq_ok.1 ht
    exact ⟨hleft, (ofTokens_eq_ok_iff rfl).1 hp⟩
  · rintro ⟨hleft, hp⟩
    exact ⟨_, tokenize_eq_ok.2 ⟨hleft, rfl⟩, (ofTokens_eq_ok_iff rfl).2 hp⟩

theorem ofSource_eq_error_iff_program {e : SyntaxError} :
    Program.ofSource source file streamFile = .error e ↔
      (∃ c left, (tokensFrom file 0 source.toList).2 = c :: left ∧
        e = unrecognised c (extent (lexemes source.toList).1) file) ∨
      (tokensFrom file 0 source.toList).2 = [] ∧
        ∃ fault c, Parser.program (ofText file source.toList) = .error fault c ∧
          e = ⟨fault.complaint, fault.token.value, c.place streamFile fault.token⟩ := by
  rw [Program.ofSource_eq_error, tokenize_eq_error]
  refine or_congr Iff.rfl ?_
  constructor
  · rintro ⟨tokens, ht, he⟩
    obtain ⟨hleft, rfl⟩ := tokenize_eq_ok.1 ht
    exact ⟨hleft, (ofTokens_eq_error_iff rfl).1 he⟩
  · rintro ⟨hleft, he⟩
    exact ⟨_, tokenize_eq_ok.2 ⟨hleft, rfl⟩, (ofTokens_eq_error_iff rfl).2 he⟩

end Sources

section Runs

variable {front back : List Char} {file : String} {c : Cursor}

/-- The program of a text that is one, and of what follows it behind a semicolon. -/
theorem program_append_semicolon {ts : List Token} {t : Token} {p : Program}
    (ht : tokensFrom file 0 front = (ts ++ [t], [])) (hsemi : t.isMark ';' = false)
    (hp : Parser.program (ofText file front) = .ok p c) :
    Parser.program (ofText file (front ++ '\n' :: ';' :: '\n' :: back)) =
      ((fun q => ⟨p.body ++ q.body⟩) <$> Parser.program)
        ((ofText file back).shift (width front + 3)) := by
  obtain ⟨os, hos, rfl⟩ := program_eq_ok_iff.1 hp
  obtain rfl := hos.eq_of_statements fun x hx => (of_mem_tokensFrom hx).1
  have hstart : ofText file front = push (ts ++ [t]) ⟨[], (ofText file front).last⟩ := by
    simp [ofText, ht, push]
  rw [hstart] at hos
  rw [ofText_append_semicolon (by rw [ht]), ht]
  exact hos.program_push rfl (by simp) (by simpa using hsemi) (isMark_seamToken ..)

theorem toNat_ofNat_add {n k : ℕ} (h : n + k < 2 ^ 32) :
    (UInt32.ofNat (n + k)).toNat = (UInt32.ofNat n).toNat + k := by
  rw [UInt32.toNat_ofNat', UInt32.toNat_ofNat', Nat.mod_eq_of_lt h, Nat.mod_eq_of_lt (by omega)]

/-- A complaint about a text is placed within it. -/
theorem exists_offset_of_error {fault : Fault} (streamFile : String)
    (h : Parser.program (ofText file front) = .error fault c) :
    ∃ n ≤ width front, (c.place streamFile fault.token).offset = .ofNat n := by
  obtain ⟨t, ht, hoffset⟩ := Operation.program.offset_of_error h streamFile
  rcases List.mem_append.1 ht with ht | ht
  · obtain ⟨-, n, hn, hstart⟩ := of_mem_tokensFrom ht
    exact ⟨n, by simpa using hn, hoffset.trans hstart⟩
  · obtain rfl := List.mem_singleton.1 ht
    exact ⟨_, le_rfl, hoffset⟩

end Runs

section Errors

variable {s₁ s₂ file streamFile : String} {ts : List Token} {t : Token} {p₁ : Program}
  {c₁ : Cursor} {e : SyntaxError}

theorem toList_append_semicolon (s₁ s₂ : String) :
    (s₁ ++ "\n;\n" ++ s₂).toList = s₁.toList ++ '\n' :: ';' :: '\n' :: s₂.toList := by
  simp

theorem tokensFrom_of_tokenize {last : Token} (h : tokenize s₁ file = .ok (ts ++ [last])) :
    tokensFrom file 0 s₁.toList = (ts, []) := by
  obtain ⟨hleft, htokens⟩ := tokenize_eq_ok.1 h
  rw [tokensFrom, hleft, (List.append_inj' htokens rfl).1]

/-- The error of a source behind a program is that of the source alone, further on. -/
theorem ofSource_append_of_error (ht : tokensFrom file 0 s₁.toList = (ts ++ [t], []))
    (hsemi : t.isMark ';' = false) (hrun₁ : Parser.program (ofText file s₁.toList) = .ok p₁ c₁)
    (hwidth : width s₂.toList + (width s₁.toList + 3) < 2 ^ 32)
    (he : Program.ofSource s₂ file streamFile = .error e) :
    ∃ offset : UInt32, Program.ofSource (s₁ ++ "\n;\n" ++ s₂) file streamFile =
        .error ⟨e.complaint, e.found, offset, e.position.file⟩ ∧
      offset.toNat = e.position.offset.toNat + width s₁.toList + 3 := by
  have hfront : (tokensFrom file 0 s₁.toList).2 = [] := by rw [ht]
  have hleft := congrArg Prod.snd (tokensFrom_append_semicolon hfront s₂.toList)
  simp only [ofSource_eq_error_iff_program, toList_append_semicolon, hleft]
  rcases ofSource_eq_error_iff_program.1 he with ⟨c, left, hc, rfl⟩ | ⟨hend, fault, c, hrun, rfl⟩
  · have hextent := extent_append_semicolon hfront s₂.toList
    refine ⟨.ofNat (extent (lexemes s₂.toList).1 + (width s₁.toList + 3)), ?_, ?_⟩
    · rw [hextent]
      exact .inl ⟨c, left, hc, rfl⟩
    · have hle := extent_lexemes_add s₂.toList
      rw [toNat_ofNat_add (by omega)]
      rfl
  · obtain ⟨n, hn, hoffset⟩ := exists_offset_of_error streamFile hrun
    have hwhole : Parser.program (ofText file (s₁.toList ++ '\n' :: ';' :: '\n' :: s₂.toList)) =
        .error ⟨fault.complaint, fault.token.shift (width s₁.toList + 3)⟩
          (c.shift (width s₁.toList + 3)) := by
      rw [program_append_semicolon ht hsemi hrun₁, map_apply,
        Operation.program.error_shift _ hrun]
    refine ⟨.ofNat (n + (width s₁.toList + 3)), .inr ⟨hend, _, _, hwhole, ?_⟩, ?_⟩
    · rw [place_shift, Position.shift, hoffset, UInt32.ofNat_add]
      rfl
    · rw [toNat_ofNat_add (by omega), ← hoffset]
      rfl

end Errors

/-- A program goes on behind a semicolon with another source as if that stood alone. If this
is a program too, its statements follow. If it is none, it has the same error, further on by
what stands before it. -/
theorem ofSource_append_semicolon {s₁ s₂ file streamFile : String} {ts : List Token}
    {t last : Token} {p₁ : Program} (ht : tokenize s₁ file = .ok (ts ++ [t, last]))
    (hsemi : t.isMark ';' = false) (hp₁ : Program.ofSource s₁ file streamFile = .ok p₁)
    (hwidth : width (s₁ ++ "\n;\n" ++ s₂).toList < 2 ^ 32) :
    (∀ p₂, Program.ofSource s₂ file streamFile = .ok p₂ →
      Program.ofSource (s₁ ++ "\n;\n" ++ s₂) file streamFile = .ok ⟨p₁.body ++ p₂.body⟩) ∧
    ∀ e, Program.ofSource s₂ file streamFile = .error e →
      ∃ offset : UInt32, Program.ofSource (s₁ ++ "\n;\n" ++ s₂) file streamFile =
          .error ⟨e.complaint, e.found, offset, e.position.file⟩ ∧
        offset.toNat = e.position.offset.toNat + width s₁.toList + 3 := by
  have hfront : tokensFrom file 0 s₁.toList = (ts ++ [t], []) :=
    tokensFrom_of_tokenize (by simpa using ht)
  obtain ⟨-, c₁, hrun₁⟩ := ofSource_eq_ok_iff_program.1 hp₁
  constructor
  · intro p₂ hp₂
    obtain ⟨hend, c, hrun⟩ := ofSource_eq_ok_iff_program.1 hp₂
    rw [ofSource_eq_ok_iff_program, toList_append_semicolon,
      tokensFrom_append_semicolon (by rw [hfront]), program_append_semicolon hfront hsemi hrun₁]
    exact ⟨hend, _, map_eq_ok.2 ⟨p₂, Operation.program.ok_shift _ hrun, rfl⟩⟩
  · intro e he
    rw [toList_append_semicolon, width_append_semicolon] at hwidth
    exact ofSource_append_of_error hfront hsemi hrun₁ hwidth he

/-- Behind a comment and characters of two bytes, a sum, and a semicolon that is missing. -/
theorem ofSource_append_semicolon_comment :
    let s := "f('é') // é"
    let call : Expr := .call (.symbol "f") [.character 0xe9]
    Program.ofSource (s ++ "\n;\n" ++ "1 + 2") "s" "s" =
        .ok ⟨[call, .binary "+" (.number 1) (.number 2)]⟩ ∧
      Program.ofSource "2 3" "s" "s" = .error ⟨.expectedPunctuation ';', "3", 2, "s"⟩ ∧
      ∃ offset : UInt32, Program.ofSource (s ++ "\n;\n" ++ "2 3") "s" "s" =
          .error ⟨.expectedPunctuation ';', "3", offset, "s"⟩ ∧ offset.toNat = 18 := by
  intro s call
  let ts : List Token := [⟨.identifier, "f", 0, 1, "s"⟩, ⟨.punctuation, "(", 1, 2, "s"⟩,
    ⟨.character, "é", 2, 6, "s"⟩]
  let t : Token := ⟨.punctuation, ")", 6, 7, "s"⟩
  have ht : tokenize s "s" = .ok (ts ++ [t, endToken 13 "s"]) := by decide +kernel
  have hsemi : t.isMark ';' = false := by decide
  have hp : Program.ofSource s "s" "s" = .ok ⟨[call]⟩ := by decide +kernel
  have hsum : Program.ofSource "1 + 2" "s" "s" = .ok ⟨[.binary "+" (.number 1) (.number 2)]⟩ := by
    decide +kernel
  have herror : Program.ofSource "2 3" "s" "s" =
      .error ⟨.expectedPunctuation ';', "3", 2, "s"⟩ := by decide +kernel
  have hwidth : width (s ++ "\n;\n" ++ "1 + 2").toList < 2 ^ 32 := by decide +kernel
  have hwidth' : width (s ++ "\n;\n" ++ "2 3").toList < 2 ^ 32 := by decide +kernel
  have hlen : width s.toList = 13 := by decide +kernel
  obtain ⟨offset, hoffset, hnat⟩ := (ofSource_append_semicolon ht hsemi hp hwidth').2 _ herror
  exact ⟨(ofSource_append_semicolon ht hsemi hp hwidth).1 _ hsum, herror, offset, hoffset,
    hnat.trans (by rw [hlen]; rfl)⟩

end ExprLang
