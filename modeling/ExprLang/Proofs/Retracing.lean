import ExprLang.Proofs.Grouping
import ExprLang.Proofs.RoundTrip

/-!
# Retracing

A node is written behind some number of parentheses and read behind some number of them.
It is retraced if these numbers agree wherever both begin at the same place: then its
reading ends where its text does, and its parts are read each from its own text.
-/
namespace ExprLang

open ExprLang.Parser Cursor

namespace Cursor.Marks

variable {m : Char} {n : ℕ} {c : Cursor} {ws : List Word}

theorem word (h : Marks m n c (ofWords (.mark m :: ws))) : Marks m (n + 1) c (ofWords ws) :=
  h.snoc (by simp)

/-- An operand is written in parentheses of its own if it is a definition. -/
theorem operand {e : Expr} {rest : List Word}
    (h : Marks '(' n c (ofWords (e.operandSpelling e.spelling ++ rest))) :
    ∃ n' rest', Marks '(' n' c (ofWords (e.spelling ++ rest')) := by
  unfold Expr.operandSpelling at h
  split_ifs at h
  · rw [List.cons_append, List.append_assoc] at h
    exact ⟨_, _, h.word⟩
  · exact ⟨_, _, h⟩

end Cursor.Marks

section Valueless

variable {c c' d : Cursor} {rest : List Word}

theorem Valueless.isMark (h : Valueless d) : d.current.isMark '(' = false := by
  cases h with
  | braces hopen => simp [Token.isMark, (Token.isMark_iff.1 hopen).2]
  | closure hk => simp [Token.isMark, (Token.isWord_iff.1 hk).1]

theorem not_valueless_word {w : Word} (hm : w.token.isMark '\x7b' = false)
    (hk : w ≠ .keyword "cls") : ¬Valueless (ofWords (w :: rest)) := by
  intro h
  cases h with
  | braces hopen => simp [hm] at hopen
  | closure hk' => exact hk (by simpa [Word.keyword] using hk')

theorem not_valueless_block (es : List Expr) :
    ¬Valueless (ofWords ((Expr.block es).spelling ++ rest)) := by
  intro h
  rw [Expr.spelling, Expr.spellings_eq_map, blockSpelling] at h
  cases h with
  | closure hk => split_ifs at hk <;> simp [Word.mark] at hk
  | braces hopen hclose =>
    cases es with
    | nil => simp at hclose
    | cons e es =>
      obtain ⟨w, ws, hw, hb⟩ := e.exists_spelling_eq
      have hmark : w.token.isMark '\x7d' = true := by simpa [separated, hw] using hclose
      simpa using hb.isMark _ hmark

/-- The text of a tree has a value wherever its parentheses are opened. -/
theorem not_valueless {e : Expr} (hl : ∀ n ∈ e.nodes, n.Legible) {a b : ℕ}
    (ha : Marks '(' a c (ofWords (e.spelling ++ rest))) (hb : Marks '(' b c d) : ¬Valueless d := by
  intro hd
  induction e using Expr.induction_on_children generalizing a rest with
  | h e ih =>
    obtain ⟨hle, hl⟩ := Expr.forall_mem_nodes.1 hl
    have hword : ∀ {n : ℕ} {w : Word} {ws : List Word}, Marks '(' n c (ofWords (w :: ws)) →
        w.token.isMark '(' = false → ¬Valueless (ofWords (w :: ws)) → False := by
      intro n w ws hn hw hnot
      obtain ⟨-, rfl⟩ := hn.unique hb (by simpa using hw) hd.isMark
      exact hnot hd
    have hoperand : ∀ {x : Expr} {n : ℕ} {ws : List Word}, x ∈ e.children →
        Marks '(' n c (ofWords (x.operandSpelling x.spelling ++ ws)) → False := by
      intro x n ws hx hn
      obtain ⟨n', ws', hn'⟩ := hn.operand
      exact ih x hx (hl x hx) hn'
    cases e with
    | assignment operator left right | binary operator left right =>
      simp only [Expr.spelling, List.cons_append, List.append_assoc] at ha
      exact hoperand (by simp [Expr.children]) ha.word
    | call callee arguments =>
      rw [Expr.spelling, List.append_assoc] at ha
      exact hoperand (by simp [Expr.children]) ha
    | ifThen | ifThenElse =>
      simp only [Expr.spelling, List.cons_append] at ha
      exact hword ha.word (by simp) (not_valueless_word (by simp) (by decide))
    | block es =>
      obtain ⟨ws, hws⟩ := Expr.exists_spelling_block es
      have hnot : ¬Valueless (ofWords ((Expr.block es).spelling ++ rest)) := not_valueless_block es
      rw [hws] at ha hnot
      exact hword ha (by simp) hnot
    | closure params body =>
      obtain ⟨es, rfl⟩ := hle.2
      simp only [Expr.spelling, List.cons_append, List.append_assoc] at ha
      refine hword ha (by simp) fun h => ?_
      cases h with
      | braces hopen => simp at hopen
      | closure hk hps h =>
        have hnames := (names_ofWords params _).symm.trans hps
        simp only [EStateM.Result.ok.injEq] at hnames
        obtain ⟨rfl, rfl⟩ := hnames
        exact not_valueless_block es h
    | boolean value =>
      exact hword ha (by simp) (not_valueless_word (by simp) (by cases value <;> decide))
    | _ =>
      refine hword ha (by simp [Word.isMark_of_ne]) (not_valueless_word ?_ ?_)
      · simp [Word.isMark_of_ne]
      · simp [Word.keyword, Word.name]

end Valueless

namespace Expr

/-- The groups around a text, those of an operation or conditional. -/
def groups : Expr → ℕ
  | assignment .. | binary .. | ifThen .. | ifThenElse .. => 1
  | _ => 0

theorem callDepth_of_groups {e : Expr} (h : 0 < e.groups) : e.callDepth = 0 := by
  cases e with
  | call => simp [groups] at h
  | _ => rfl

theorem groups_of_isDefinition {e : Expr} (h : e.isDefinition = true) : e.groups = 0 := by
  cases e with
  | function => rfl
  | _ => simp [isDefinition] at h

end Expr

/-- An expression that was written behind `a` parentheses and before `rest` is read behind
`b` of them to `c'`, in `n` groups and with `k` places for arguments. The parentheses
around it are as many either way and its nodes show their grouping. No more lists than
there are places stand behind it in no group, and as many if there is one left. -/
structure Retraced (e : Expr) (a b n k : ℕ) (rest : List Word) (c' : Cursor) : Prop where
  opened : a + e.groups = b + n
  closed : ∃ d, Marks ')' e.groups d (ofWords rest) ∧ Marks ')' n d c'
  printable : ∀ m ∈ e.nodes, m.Printable
  depth_le : n = 0 → e.callDepth ≤ k
  depth_eq : c'.current.isMark '(' = true →
    n = 0 ∧ (e.callDepth = k ∨ e.groups = 1) ∨ 0 < n ∧ k = 0

/-- An expression with `k` places for arguments is read to where its text ends. -/
structure Ended (e : Expr) (k : ℕ) (rest : List Word) (c' : Cursor) : Prop where
  eq : c' = ofWords rest
  printable : ∀ m ∈ e.nodes, m.Printable
  depth_le : e.callDepth ≤ k
  depth_eq : c'.current.isMark '(' = true → e.callDepth = k

/-- In as many groups as it is written, an expression is read to the end of its text. -/
theorem Retraced.ended {e : Expr} {a b k : ℕ} {rest : List Word} {c' : Cursor}
    (h : Retraced e a b e.groups k rest c') : Ended e k rest c' := by
  obtain ⟨d, hd, hd'⟩ := h.closed
  refine ⟨hd'.eq_of_same hd, h.printable, ?_, ?_⟩
  · by_cases hg : e.groups = 0
    · exact h.depth_le hg
    · rw [Expr.callDepth_of_groups (Nat.pos_of_ne_zero hg)]
      exact k.zero_le
  · intro hm
    rcases h.depth_eq hm with ⟨hg, hdepth | hg'⟩ | ⟨hg, rfl⟩
    · exact hdepth
    · omega
    · exact Expr.callDepth_of_groups hg

/-- An expression is retraced wherever it is read from where it was written, or from among
the parentheses before that. -/
def Retraces (e : Expr) : Prop :=
  ∀ ⦃n k a b : ℕ⦄ ⦃c c' c₀ : Cursor⦄ ⦃rest : List Word⦄, Stands n k e c c' → k ≤ 2 →
    Marks '(' a c₀ (ofWords (e.spelling ++ rest)) → Marks '(' b c₀ c → Retraced e a b n k rest c'

namespace Retraces

variable {e : Expr} {n k a b : ℕ} {c c' c₀ : Cursor} {rest : List Word}

theorem same (h : Retraces e) (hs : Stands n k e (ofWords (e.spelling ++ rest)) c')
    (hk : k ≤ 2) : Ended e k rest c' := by
  have hr := h hs hk (.none _) (.none _)
  obtain rfl : e.groups = n := by simpa using hr.opened
  exact hr.ended

theorem expression (h : Retraces e)
    (hr : Reads (.expression (some e)) (ofWords (e.spelling ++ rest)) c') : Ended e 2 rest c' := by
  obtain ⟨n, hn⟩ := hr.stands e rfl
  exact h.same hn le_rfl

/-- An operand is read behind as many parentheses as it is written if no more of them
close behind it. -/
theorem operand (h : Retraces e) (hs : Stands n k e c c') (hk : k ≤ 2)
    (ha : Marks '(' a c₀ (ofWords (e.operandSpelling e.spelling ++ rest)))
    (hb : Marks '(' b c₀ c) (hrest : (ofWords rest).current.isMark ')' = false)
    (hc' : c'.current.isMark ')' = false) : a = b ∧ Ended e k rest c' := by
  by_cases hdef : e.isDefinition = true
  · have hgroups := Expr.groups_of_isDefinition hdef
    have hdepth := Expr.callDepth_of_isDefinition hdef
    rw [Expr.operandSpelling, if_pos hdef, List.cons_append, List.append_assoc] at ha
    have hr := h hs hk ha.word hb
    obtain ⟨d, hd, hd'⟩ := hr.closed
    have hopened := hr.opened
    rw [hgroups] at hd hopened
    cases hd
    have hone : Marks ')' 1 (ofWords ([.mark ')'] ++ rest)) (ofWords rest) :=
      .mark (by simp) (.none _)
    obtain ⟨rfl, rfl⟩ := hone.unique hd' hrest hc'
    refine ⟨by omega, rfl, hr.printable, by omega, fun hm => ?_⟩
    have hplaces := hr.depth_eq hm
    omega
  · rw [Expr.operandSpelling, if_neg hdef] at ha
    have hr := h hs hk ha hb
    obtain ⟨d, hd, hd'⟩ := hr.closed
    obtain ⟨rfl, -⟩ := hd.unique hd' hrest hc'
    have hopened := hr.opened
    exact ⟨by omega, hr.ended⟩

end Retraces

section Lists

variable {close separator : Char} {es : List Expr} {os : List (Option Expr)} {c' : Cursor}
  {rest : List Word}

/-- An expression is read for what it is from its own text. -/
theorem Retraces.head {e : Expr} (h : Retraces e) (hl : ∀ n ∈ e.nodes, n.Legible)
    {o : Option Expr} (ho : Reads (.expression o) (ofWords (e.spelling ++ rest)) c')
    (hr : (o :: os).reduceOption = e :: es) : Ended e 2 rest c' ∧ os.reduceOption = es := by
  cases o with
  | none =>
    obtain ⟨n, d, hd, hv⟩ := ho.exists_valueless
    exact absurd hv (not_valueless hl (.none _) hd)
  | some e' =>
    obtain ⟨rfl, rfl⟩ := List.cons.inj ((List.reduceOption_cons_of_some e' os).symm.trans hr)
    exact ⟨h.expression ho, rfl⟩

theorem not_closes_spelling (hclose : close ≠ '(' ∧ close ≠ '\x7b') (e : Expr) :
    (ofWords (e.spelling ++ rest)).current.isMark close = false := by
  obtain ⟨w, ws, hw, hb⟩ := e.exists_spelling_eq
  rw [hw, List.cons_append, current_ofWords, Bool.eq_false_iff]
  exact fun hm => (hb.isMark close hm).elim hclose.1 hclose.2

/-- The elements behind the first of a list are read each from its own text. -/
theorem ended_of_items (h : ∀ e ∈ es, Retraces e ∧ ∀ n ∈ e.nodes, n.Legible)
    (hclose : close ≠ '(' ∧ close ≠ '\x7b') (hsep : separator ≠ close)
    (hos : os.reduceOption = es) (hr : Reads (.items close separator os)
      (ofWords ((es.map Expr.spelling).flatMap (.mark separator :: ·) ++ .mark close :: rest)) c') :
    c' = ofWords (.mark close :: rest) ∧ ∀ e ∈ es, ∀ n ∈ e.nodes, n.Printable := by
  induction es generalizing os with
  | nil =>
    cases hr with
    | noItems => exact ⟨rfl, nofun⟩
    | trailing hnot | items hnot => exact absurd (closes_mark close rest) hnot
  | cons e es ih =>
    obtain ⟨he, hes⟩ := List.forall_mem_cons.1 h
    simp only [List.map_cons, List.flatMap_cons, List.cons_append, List.append_assoc] at hr
    cases hr with
    | noItems hcl => exact absurd hcl (not_closes_mark hsep _)
    | trailing _ _ hend => simp [not_closes_spelling hclose] at hend
    | items _ _ _ ho hitems =>
      obtain ⟨hended, hos⟩ := he.1.head he.2 ho hos
      obtain ⟨rfl, hp⟩ := hended
      obtain ⟨hc', hall⟩ := ih hes hos hitems
      exact ⟨hc', List.forall_mem_cons.2 ⟨hp, hall⟩⟩

/-- The elements of a list are read each from its own text. -/
theorem ended_of_elements (h : ∀ e ∈ es, Retraces e ∧ ∀ n ∈ e.nodes, n.Legible)
    (hclose : close ≠ '(' ∧ close ≠ '\x7b') (hsep : separator ≠ close)
    (hos : os.reduceOption = es) (hnil : es = [] → os = [])
    (hr : Reads (.elements close separator os)
      (ofWords (separated (.mark separator) (es.map Expr.spelling) ++ .mark close :: rest)) c') :
    c' = ofWords (.mark close :: rest) ∧ ∀ e ∈ es, ∀ n ∈ e.nodes, n.Printable := by
  cases es with
  | nil =>
    obtain rfl := hnil rfl
    cases hr with
    | noElements => exact ⟨rfl, nofun⟩
  | cons e es =>
    obtain ⟨he, hes⟩ := List.forall_mem_cons.1 h
    simp only [List.map_cons, separated, List.append_assoc] at hr
    cases hr with
    | noElements => simp at hos
    | elements _ ho hitems =>
      obtain ⟨⟨rfl, hp, -, -⟩, hos⟩ := he.1.head he.2 ho hos
      obtain ⟨hc', hall⟩ := ended_of_items hes hclose hsep hos hitems
      exact ⟨hc', List.forall_mem_cons.2 ⟨hp, hall⟩⟩

/-- The statements between braces are read each from its own text. -/
theorem ended_of_block (h : ∀ e ∈ es, Retraces e ∧ ∀ n ∈ e.nodes, n.Legible)
    (hr : Reads (.block (some (.block es))) (ofWords ((Expr.block es).spelling ++ rest)) c') :
    c' = ofWords rest ∧ ∀ e ∈ es, ∀ n ∈ e.nodes, n.Printable := by
  rw [Expr.spelling, Expr.spellings_eq_map] at hr
  by_cases hes : es = []
  · subst hes
    exact ⟨hr.eq_of_same (ReadBack.block (by simp) rest), by simp⟩
  · have hspelling : blockSpelling (es.map Expr.spelling) ++ rest = .mark '\x7b' ::
        (separated (.mark ';') (es.map Expr.spelling) ++ .mark '\x7d' :: rest) := by
      simp [blockSpelling, hes]
    rw [hspelling] at hr
    generalize ho : some (Expr.block es) = o at hr
    cases hr with
    | @block _ _ os hopen hel hclose =>
      have hos : os.reduceOption = es := by
        unfold blockOf at ho
        split_ifs at ho
        · cases ho
          rfl
      obtain ⟨rfl, hall⟩ := ended_of_elements h (by decide) (by decide) hos
        (fun hnil => absurd hnil hes) hel
      exact ⟨rfl, hall⟩

end Lists

end ExprLang
