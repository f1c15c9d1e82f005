import ExprLang.Proofs.Contexts
import ExprLang.Proofs.Lookahead
import ExprLang.Proofs.Printable
import ExprLang.Proofs.Yield

/-!
# Blocks and programs

What stands between braces is a block exactly where it is a program by itself, of the
same statements. Two loops read them: one looks for a closing brace before each statement
and each semicolon, the other one for the end of the input around each statement. Both
are compared one statement at a time, which is read the same before either ending.
-/
namespace ExprLang

open ExprLang.Parser Cursor

section Beginnings

variable {c c' : Cursor} {o : Option Expr}

theorem Token.begins_of_isMark {t : Token} {m : Char} (h : t.isMark m = true)
    (hm : m = '(' ∨ m = '\x7b') : Word.Begins t.word where
  ne_eof := by simp [word, (isMark_iff.1 h).1]
  ne_operator := by simp [word, (isMark_iff.1 h).1]
  isMark n hn := by
    have hn : t.isMark n = true := hn
    obtain rfl : m = n := by simpa [(isMark_iff.1 h).2] using (isMark_iff.1 hn).2
    exact hm

theorem Token.begins_of_isWord {t : Token} {word : String} (h : t.isWord .keyword word = true) :
    Word.Begins t.word := by
  have hk := (isWord_iff.1 h).1
  exact Word.begins_of_ne (by simp [Token.word, hk]) (by simp [Token.word, hk])
    (by simp [Token.word, hk])

theorem Reads.begins_of_unit (h : Reads (.unit o) c c') : Word.Begins c.current.word := by
  cases h with
  | external hk | function hk | bodiless hk | ifThen hk | ifThenElse hk | ifThenAbsent hk
  | closure hk => exact Token.begins_of_isWord hk
  | boolean hk => exact hk.elim Token.begins_of_isWord Token.begins_of_isWord
  | grouping hopen => exact Token.begins_of_isMark hopen (.inl rfl)
  | braces h =>
    cases h with
    | block hopen => exact Token.begins_of_isMark hopen (.inr rfl)
  | terminal h =>
    rcases Rule.terminalValue_eq_ok h with hk | hk | hk | hk <;>
      exact Word.begins_of_ne (by simp [Token.word, hk]) (by simp [Token.word, hk])
        (by simp [Token.word, hk])

/-- Where an expression is read, there is a token that one may begin with. -/
theorem Reads.begins (h : Reads (.expression o) c c') : Word.Begins c.current.word := by
  have hatom : ∀ {o : Option Expr} {c' : Cursor}, Reads (.atom o) c c' →
      Word.Begins c.current.word := by
    intro o c' h
    cases h with
    | atom hu | absentAtom hu => exact hu.begins_of_unit
  cases h with
  | expression ha | absent ha => exact hatom ha

theorem Reads.atEnd_eq_false (h : Reads (.expression o) c c') : c.atEnd = false := by
  have hk : c.current.kind ≠ .eof := h.begins.ne_eof
  simpa [Cursor.atEnd, Token.isEof] using hk

/-- No list ends where an expression is read. -/
theorem Reads.not_closes {close : Char} (h : Reads (.expression o) c c')
    (hclose : close ≠ '(' ∧ close ≠ '\x7b') : ¬Closes close c := by
  rintro (he | hm)
  · exact Bool.false_ne_true (h.atEnd_eq_false.symm.trans he)
  · exact (h.begins.isMark close hm).elim hclose.1 hclose.2

end Beginnings

section Suffixes

variable {c c' : Cursor} {os : List (Option Expr)}

theorem Reads.exists_push_of_expression {o : Option Expr} (h : Reads (.expression o) c c') :
    ∃ ts, c = push ts c' := by
  obtain ⟨k, -, rfl, -⟩ := (follows_expression .eq).ok c.size.lt_succ_self h.run
  exact ⟨c.ahead.take k, by simp [push, drop]⟩

theorem Reads.exists_push_of_items {close separator : Char}
    (h : Reads (.items close separator os) c c') : ∃ ts, c = push ts c' := by
  induction os generalizing c with
  | nil =>
    cases h with
    | noItems => exact ⟨[], rfl⟩
    | trailing _ hsep =>
      obtain ⟨x, hx⟩ := exists_eq_push_of_isMark hsep (push_nil c.next).symm
      exact ⟨[x], hx⟩
  | cons o os ih =>
    cases h with
    | items _ hsep _ ho hos =>
      obtain ⟨us, rfl⟩ := ih hos
      obtain ⟨ts, hts⟩ := ho.exists_push_of_expression
      obtain ⟨x, hx⟩ := exists_eq_push_of_isMark hsep (hts.trans (push_push ..))
      exact ⟨_, hx⟩

theorem Reads.exists_push_of_elements {close separator : Char}
    (h : Reads (.elements close separator os) c c') : ∃ ts, c = push ts c' := by
  cases h with
  | noElements => exact ⟨[], rfl⟩
  | elements _ ho hos =>
    obtain ⟨us, rfl⟩ := hos.exists_push_of_items
    obtain ⟨ts, rfl⟩ := ho.exists_push_of_expression
    exact ⟨_, push_push ..⟩

theorem Reads.exists_push_of_statements (h : Reads (.statements os) c c') :
    ∃ ts, c = push ts c' := by
  induction os generalizing c with
  | nil =>
    cases h with
    | noStatements => exact ⟨[], rfl⟩
  | cons o os ih =>
    cases h with
    | lastStatement _ ho => exact ho.exists_push_of_expression
    | statements _ ho hsep hos =>
      obtain ⟨us, hus⟩ := ih hos
      obtain ⟨x, rfl⟩ := exists_eq_push_of_isMark hsep hus
      obtain ⟨ts, rfl⟩ := ho.exists_push_of_expression
      exact ⟨_, push_push ..⟩

end Suffixes

/-- Before a single end mark, statements are read up to it. -/
theorem Reads.eq_of_statements {ts : List Token} {last : EndMark} {os : List (Option Expr)}
    {c' : Cursor} (h : Reads (.statements os) ⟨ts, last⟩ c') (hts : ∀ t ∈ ts, t.isEof = false) :
    c' = ⟨[], last⟩ := by
  obtain ⟨us, hus⟩ := h.exists_push_of_statements
  obtain ⟨rfl, rfl⟩ : ts = us ++ c'.ahead ∧ last = c'.last := by simpa [push] using hus
  have hend := h.atEnd_of_statements
  obtain ⟨_ | ⟨t, ts'⟩, last⟩ := c'
  · rfl
  · have ht : t.isEof = false := hts t (by simp)
    exact absurd hend (by simp [Cursor.atEnd, ht])

/-- An expression is read alike before any two contexts that end it. -/
theorem Reads.exchange_iff {b e : Cursor} (hb : b.Ends) (he : e.Ends) {o : Option Expr}
    {ts us : List Token} : Reads (.expression o) (push ts b) (push us b) ↔
      Reads (.expression o) (push ts e) (push us e) := by
  have hone : ∀ {b e : Cursor}, b.Ends → e.Ends →
      Reads (.expression o) (push ts b) (push us b) →
        Reads (.expression o) (push ts e) (push us e) := by
    intro b e hb he h
    obtain ⟨ts', hts', h'⟩ := h.exchange hb.kind he rfl nofun
    obtain rfl := push_inj.1 hts'
    exact h'
  exact ⟨hone hb he, hone he hb⟩

/-- Behind a statement the input ends, or a semicolon stands before more statements. -/
def ReadsOn (os : List (Option Expr)) (ts : List Token) (e : Cursor) : Prop :=
  ts = [] ∧ os = [] ∨
    ∃ x us, ts = x :: us ∧ x.isMark ';' = true ∧ Reads (.statements os) (push us e) e

section Loops

variable {b e : Cursor} {o : Option Expr} {os : List (Option Expr)} {ts : List Token}

theorem reads_statements_cons_iff (he : e.atEnd = true) :
    Reads (.statements (o :: os)) (push ts e) e ↔
      ∃ us, Reads (.expression o) (push ts e) (push us e) ∧ ReadsOn os us e := by
  constructor
  · intro h
    cases h with
    | lastStatement _ ho => exact ⟨[], ho, .inl ⟨rfl, rfl⟩⟩
    | statements _ ho hsep hos =>
      obtain ⟨us, hus⟩ := hos.exists_push_of_statements
      obtain ⟨x, rfl⟩ := exists_eq_push_of_isMark hsep hus
      exact ⟨x :: us, ho, .inr ⟨x, us, rfl, hsep, hos⟩⟩
  · rintro ⟨us, ho, ⟨rfl, rfl⟩ | ⟨x, us, rfl, hsep, hos⟩⟩
    · exact .lastStatement ho.atEnd_eq_false ho he
    · exact .statements ho.atEnd_eq_false ho hsep hos

theorem reads_elements_cons_iff :
    Reads (.elements '\x7d' ';' (o :: os)) (push ts b) b ↔
      ∃ us, Reads (.expression o) (push ts b) (push us b) ∧
        Reads (.items '\x7d' ';' os) (push us b) b := by
  constructor
  · intro h
    cases h with
    | elements _ ho hos =>
      obtain ⟨us, rfl⟩ := hos.exists_push_of_items
      exact ⟨us, ho, hos⟩
  · rintro ⟨us, ho, hos⟩
    exact .elements (ho.not_closes (by decide)) ho hos

theorem Reads.ne_nil_of_statements (h : Reads (.statements os) (push ts e) e) (hts : ts ≠ []) :
    os ≠ [] := by
  rintro rfl
  obtain ⟨d, h, hd⟩ : ∃ d, Reads (.statements []) (push ts e) d ∧ d = e := ⟨e, h, rfl⟩
  cases h with
  | noStatements => exact hts (push_eq_self.1 hd)

theorem Reads.ne_nil_of_elements {close separator : Char}
    (h : Reads (.elements close separator os) (push ts b) b) (hts : ts ≠ []) : os ≠ [] := by
  rintro rfl
  obtain ⟨d, h, hd⟩ : ∃ d, Reads (.elements close separator []) (push ts b) d ∧ d = b :=
    ⟨b, h, rfl⟩
  cases h with
  | noElements => exact hts (push_eq_self.1 hd)

variable (hb : b.current.isMark '\x7d' = true) (he : e.atEnd = true)

include hb he

/-- Behind the first statement, a block goes on as a program does. -/
theorem reads_items_iff :
    Reads (.items '\x7d' ';' os) (push ts b) b ↔ ReadsOn os ts e := by
  have hbe : b.Ends := .of_isMark hb (by decide)
  induction os generalizing ts with
  | nil =>
    constructor
    · intro h
      obtain ⟨d, h, hd⟩ : ∃ d, Reads (.items '\x7d' ';' []) (push ts b) d ∧ d = b := ⟨b, h, rfl⟩
      cases h with
      | noItems => exact .inl ⟨push_eq_self.1 hd, rfl⟩
      | trailing _ hsep =>
        obtain ⟨x, hx⟩ := exists_eq_push_of_isMark hsep (hd.trans (push_nil b).symm)
        obtain rfl := push_inj.1 hx
        exact .inr ⟨x, [], rfl, hsep, .noStatements he⟩
    · rintro (⟨rfl, -⟩ | ⟨x, us, rfl, hsep, hos⟩)
      · exact .noItems (.inr hb)
      · obtain ⟨d, hos, hd⟩ : ∃ d, Reads (.statements []) (push us e) d ∧ d = e := ⟨e, hos, rfl⟩
        cases hos with
        | noStatements =>
          obtain rfl := push_eq_self.1 hd
          exact .trailing (c := push [x] b) (not_closes_of_isMark hsep (by decide)) hsep hb
  | cons o os ih =>
    constructor
    · intro h
      cases h with
      | items _ hsep _ ho hos =>
        obtain ⟨us, rfl⟩ := hos.exists_push_of_items
        obtain ⟨us', hus'⟩ := ho.exists_push_of_expression
        have hcat : (push ts b).next = push (us' ++ us) b := hus'.trans (push_push ..)
        obtain ⟨x, hx⟩ := exists_eq_push_of_isMark hsep hcat
        obtain rfl := push_inj.1 hx
        refine .inr ⟨x, _, rfl, hsep, (reads_statements_cons_iff he).2 ⟨us, ?_, ih.1 hos⟩⟩
        exact (Reads.exchange_iff hbe (.of_isEof he)).1 (hcat ▸ ho)
    · rintro (⟨-, hos⟩ | ⟨x, us, rfl, hsep, hos⟩)
      · simp at hos
      · obtain ⟨us', ho, hon⟩ := (reads_statements_cons_iff he).1 hos
        have ho := (Reads.exchange_iff (.of_isEof he) hbe).1 ho
        have hnot : ¬Closes '\x7d' (push us b) := ho.not_closes (by decide)
        exact .items (c := push (x :: us) b) (not_closes_of_isMark hsep (by decide)) hsep
          (by simpa using fun h => hnot (.inr h)) ho (ih.2 hon)

/-- What a block has between its braces is what a program has. -/
theorem reads_elements_iff (hts : ts ≠ []) :
    Reads (.elements '\x7d' ';' os) (push ts b) b ↔ Reads (.statements os) (push ts e) e := by
  cases os with
  | nil =>
    exact iff_of_false (fun h => h.ne_nil_of_elements hts rfl)
      (fun h => h.ne_nil_of_statements hts rfl)
  | cons o os =>
    rw [reads_statements_cons_iff he, reads_elements_cons_iff]
    simp only [reads_items_iff hb he, Reads.exchange_iff (.of_isMark hb (by decide)) (.of_isEof he)]

end Loops

theorem blockOf_eq_some_block {os : List (Option Expr)} {body : List Expr} :
    blockOf os = some (.block body) ↔ os ≠ [] ∧ os.reduceOption = body := by
  cases os <;> simp [blockOf]

/-- A block whose braces are the first and the last token has its statements between them. -/
theorem reads_block_iff {opening closing : Token} {ts : List Token} {e : Cursor}
    {body : List Expr} (hopen : opening.isMark '\x7b' = true)
    (hclose : closing.isMark '\x7d' = true) :
    Reads (.block (some (.block body))) (push (opening :: (ts ++ [closing])) e) e ↔
      ∃ os, Reads (.elements '\x7d' ';' os) (push ts (push [closing] e)) (push [closing] e) ∧
        os ≠ [] ∧ os.reduceOption = body := by
  rw [push_push]
  constructor
  · intro h
    obtain ⟨o, d, h, ho, hd⟩ : ∃ o d, Reads (.block o) (push (opening :: (ts ++ [closing])) e) d ∧
        o = some (Expr.block body) ∧ d = e := ⟨_, e, h, rfl, rfl⟩
    cases h with
    | @block _ _ os _ hel hclose' =>
      rw [next_push_cons] at hel
      obtain ⟨x, rfl⟩ := exists_eq_push_of_isMark hclose' (hd.trans (push_nil e).symm)
      obtain ⟨us, hus⟩ := hel.exists_push_of_elements
      rw [push_push, push_inj] at hus
      obtain ⟨-, hx⟩ := List.append_inj' hus rfl
      exact ⟨os, hx ▸ hel, blockOf_eq_some_block.1 ho⟩
  · rintro ⟨os, hel, hos⟩
    rw [← blockOf_eq_some_block.2 hos]
    exact .block (c := push (opening :: (ts ++ [closing])) e) hopen hel hclose

/-- The cursor that a run leaves behind, and how many tokens that is further on. -/
theorem TokenStream.run_eq_ok_iff {α : Type} {p : Parser α} {s : TokenStream} {a : α} {n : ℕ} :
    (s.run p).1 = .ok a ∧ (s.run p).2.position = n ↔
      ∃ c, p s.cursor = .ok a c ∧ s.position + (s.cursor.size - c.size) = n := by
  unfold run
  cases p s.cursor <;> simp [moveTo]

/-- Braces around tokens that are not the end of the input make a block, read to the end
mark behind them, exactly where these tokens alone make a program, of the same statements. -/
theorem block_eq_ok_iff_ofTokens {ts : List Token} {opening closing last last' : Token}
    (hne : ts ≠ []) (hts : ∀ t ∈ ts, t.isEof = false) (hopen : opening.isMark '\x7b' = true)
    (hclose : closing.isMark '\x7d' = true) (hlast : last.isEof = true)
    (hlast' : last'.isEof = true) (file file' : String) (body : List Expr) :
    (((TokenStream.ofTokens (opening :: (ts ++ [closing, last])) file).run Parser.block).1 =
        .ok (some (.block body)) ∧
      ((TokenStream.ofTokens (opening :: (ts ++ [closing, last])) file).run
        Parser.block).2.position = ts.length + 2) ↔
      Program.ofTokens (ts ++ [last']) file' = .ok ⟨body⟩ := by
  let e : Cursor := ⟨[], last.value, last.span⟩
  let e' : Cursor := ⟨[], last'.value, last'.span⟩
  have hstart : (TokenStream.ofTokens (opening :: (ts ++ [closing, last])) file).cursor =
      push (opening :: (ts ++ [closing])) e := by
    have hsplit : opening :: (ts ++ [closing, last]) = opening :: (ts ++ [closing]) ++ [last] := by
      simp
    rw [TokenStream.ofTokens, hsplit, ofTokens_append hlast]
    simp [push, e]
  have hstart' : (⟨ts, last'.value, last'.span⟩ : Cursor) = push ts e' := by simp [push, e']
  have hbe : (push [closing] e).current.isMark '\x7d' = true := hclose
  have hend : e'.atEnd = true := rfl
  have hsize : (push (opening :: (ts ++ [closing])) e).size = ts.length + 2 := by
    rw [size_push]
    simp [e, size]
  rw [TokenStream.run_eq_ok_iff, hstart, ofTokens_eq_ok_iff hlast', hstart']
  constructor
  · rintro ⟨c', hrun, hpos⟩
    obtain rfl : c' = e := by
      obtain ⟨k, -, rfl, -⟩ := (Operation.block.follows .eq).ok (Nat.lt_succ_self _) hrun
      have hk : ts.length + 2 ≤ k := by
        simp only [size_drop, hsize, TokenStream.ofTokens] at hpos
        omega
      simp [push, drop, e, hk]
    obtain ⟨os, hel, -, rfl⟩ := (reads_block_iff hopen hclose).1 (reads_iff.2 hrun)
    exact ⟨e', program_eq_ok_iff.2 ⟨os, (reads_elements_iff hbe hend hne).1 hel, rfl⟩⟩
  · rintro ⟨c', hrun⟩
    obtain ⟨os, hos, hbody⟩ := program_eq_ok_iff.1 hrun
    obtain rfl : body = os.reduceOption := by simpa using hbody
    obtain rfl : c' = e' := (hstart' ▸ hos).eq_of_statements hts
    have hel := (reads_elements_iff hbe hend hne).2 hos
    refine ⟨e, reads_iff.1 ((reads_block_iff hopen hclose).2 ⟨os, hel, ?_, rfl⟩), ?_⟩
    · exact hos.ne_nil_of_statements hne
    · rw [hsize]
      simp [TokenStream.ofTokens, e, size]

/-- A definition of a closing brace, and empty braces before a last semicolon. -/
theorem block_eq_ok_iff_ofTokens_brace :
    let ts := [.detached .keyword "def", .detached .punctuation "\x7d",
      .detached .identifier "x", .detached .punctuation ";", .detached .punctuation "\x7b",
      .detached .punctuation "\x7d", .detached .punctuation ";"]
    let block := .detached .punctuation "\x7b" ::
      (ts ++ [.detached .punctuation "\x7d", .detached .eof ""])
    let body := [.function "\x7d" [] (.symbol "x")]
    Program.ofTokens (ts ++ [.detached .eof "EOF"]) "p" = .ok ⟨body⟩ ∧
      ((TokenStream.ofTokens block "b").run Parser.block).1 = .ok (some (.block body)) ∧
      ((TokenStream.ofTokens block "b").run Parser.block).2.position = 9 := by
  intro ts block body
  have h : Program.ofTokens (ts ++ [.detached .eof "EOF"]) "p" = .ok ⟨body⟩ := by decide +kernel
  have hne : ts ≠ [] := List.cons_ne_nil _ _
  have hts : ∀ t ∈ ts, t.isEof = false := by decide
  have hopen : (Token.detached .punctuation "\x7b").isMark '\x7b' = true := by decide
  have hclose : (Token.detached .punctuation "\x7d").isMark '\x7d' = true := by decide
  have hlast : (Token.detached .eof "").isEof = true := rfl
  exact ⟨h, (block_eq_ok_iff_ofTokens hne hts hopen hclose hlast rfl "b" "p" body).2 h⟩

end ExprLang
