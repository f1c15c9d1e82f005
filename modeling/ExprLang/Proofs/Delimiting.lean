import ExprLang.Proofs.Blocks
import ExprLang.Proofs.Progress

/-!
# Delimited lists

A list begins with its opening mark and ends behind its closing mark. Between them it is empty,
or it has elements with one separator between each two of them, and perhaps one behind the last.
This is so whatever an element is, if only it is not read backward.
-/
namespace ExprLang

open Cursor

/-- A parser that does not move back where it gives a value. -/
def Parser.Forward {α : Type} (p : Parser α) : Prop :=
  ∀ ⦃c a c'⦄, p c = .ok a c' → ∃ k, c' = c.drop k

/-- Run from the token `b` on, a parser gives a value and stops at the token `e`. -/
def Parser.Gives {α : Type} (p : Parser α) (tokens : List Token) (file : String) (b : ℕ) (a : α)
    (e : ℕ) : Prop :=
  ((TokenStream.startAt tokens b file).run p).1 = .ok a ∧
    ((TokenStream.startAt tokens b file).run p).2.position = e

/-- Punctuation with this mark has the index `i` in the stream of a token list. -/
def MarkAt (tokens : List Token) (mark : Char) (i : ℕ) : Prop :=
  ∃ t, (withEndMark tokens)[i]? = some t ∧ t.isMark mark = true

section Indices

variable {α : Type} {E : Parser α} {tokens : List Token} {file : String}

theorem Cursor.drop_eq_drop_min (c : Cursor) (k : ℕ) : c.drop k = c.drop (min k c.size) := by
  rcases le_total k c.size with hk | hk
  · rw [min_eq_left hk]
  · have hk' : c.ahead.length ≤ k := hk
    rw [min_eq_right hk, drop, drop, size, List.drop_eq_nil_of_le hk', List.drop_length]

theorem Cursor.next_drop (c : Cursor) (k : ℕ) : (c.drop k).next = c.drop (k + 1) := by
  rw [← drop_one, drop_drop]

/-- What holds of a token at an index, and of no end mark, holds at the cursor there. -/
theorem exists_token_iff {P : Token → Prop} (hP : ∀ m : EndMark, ¬P m.token) {i : ℕ} :
    (∃ t, (withEndMark tokens)[i]? = some t ∧ P t) ↔
      P ((ofTokens tokens).drop i).current := by
  have hget := (ofTokens tokens).getElem?_tokens i
  rw [← tokens_ofTokens_eq_withEndMark]
  rcases le_or_gt i (ofTokens tokens).size with hi | hi
  · rw [min_eq_left hi] at hget
    simp [hget]
  · have hnone : (ofTokens tokens).tokens[i]? = none := by
      rw [List.getElem?_eq_none_iff]
      simp only [Cursor.tokens, List.length_append, List.length_singleton]
      exact hi
    have hlast : ((ofTokens tokens).drop i).current = (ofTokens tokens).last.token := by
      rw [Cursor.drop, List.drop_eq_nil_of_le hi.le, current_nil]
    simp [hnone, hlast, hP]

theorem markAt_iff {mark : Char} {i : ℕ} :
    MarkAt tokens mark i ↔ ((ofTokens tokens).drop i).current.isMark mark = true :=
  exists_token_iff fun m => by simp [EndMark.token, Token.isMark]

theorem MarkAt.lt {mark : Char} {i : ℕ} (h : MarkAt tokens mark i) :
    i < (ofTokens tokens).size := by
  have hlt := size_next_lt_of_isMark (markAt_iff.1 h)
  simp only [size_next, size_drop] at hlt
  omega

theorem MarkAt.eq_of_drop_eq {mark : Char} {j k : ℕ} (h : MarkAt tokens mark k)
    (hd : (ofTokens tokens).drop k = (ofTokens tokens).drop j) : k = j := by
  have hj : MarkAt tokens mark j := markAt_iff.2 (hd ▸ markAt_iff.1 h)
  exact drop_inj h.lt.le hj.lt.le hd

/-- What a parser gives from a token on, it gives at the cursor there. -/
theorem Parser.Forward.gives_iff (hE : E.Forward) {b e : ℕ} {a : α}
    (hb : b ≤ (ofTokens tokens).size) : E.Gives tokens file b a e ↔
      e ≤ (ofTokens tokens).size ∧
        E ((ofTokens tokens).drop b) = .ok a ((ofTokens tokens).drop e) := by
  rw [Gives, TokenStream.run_eq_ok_iff]
  constructor
  · rintro ⟨c, hc, he⟩
    obtain ⟨k, rfl⟩ := hE hc
    simp only [TokenStream.startAt, size_drop, drop_drop] at he hc
    have hmin : min (b + k) (ofTokens tokens).size = e := by omega
    rw [drop_eq_drop_min _ (b + k), hmin] at hc
    exact ⟨by omega, hc⟩
  · rintro ⟨he, h⟩
    obtain ⟨k, hk⟩ := hE h
    have hsize := congrArg Cursor.size hk
    simp only [size_drop] at hsize
    refine ⟨_, h, ?_⟩
    simp only [TokenStream.startAt, size_drop]
    omega

theorem Parser.Forward.exists_gives (hE : E.Forward) (file : String) {b : ℕ} {a : α} {c : Cursor}
    (hb : b ≤ (ofTokens tokens).size) (h : E ((ofTokens tokens).drop b) = .ok a c) :
    ∃ e ≤ (ofTokens tokens).size, E.Gives tokens file b a e ∧
      c = (ofTokens tokens).drop e := by
  obtain ⟨k, rfl⟩ := hE h
  rw [drop_drop, drop_eq_drop_min _ (b + k)] at h ⊢
  exact ⟨_, min_le_right .., (hE.gives_iff hb).2 ⟨min_le_right .., h⟩, rfl⟩

end Indices

namespace Parser

variable {α : Type} {E : Parser α} {tokens : List Token} {file : String}
  {close separator : Char}

/-- A parser that reads alike at equal cursors does not read backward. -/
theorem forward_of_follows (h : ∀ n, Follows Eq n Eq E E) : E.Forward := by
  intro c a c' hr
  obtain ⟨k, -, rfl, -⟩ := (h (c.size + 1)).ok c.size.lt_succ_self hr
  exact ⟨k, rfl⟩

theorem Element.forward (h : E.Element) : E.Forward :=
  forward_of_follows fun _ => h.follows .eq

theorem Operation.forward (h : E.Operation) : E.Forward :=
  forward_of_follows fun _ => h.follows .eq

/-- A separator and no closing mark, between two elements of a list or behind the last one. -/
def SeparatorAt (tokens : List Token) (close separator : Char) (i : ℕ) : Prop :=
  MarkAt tokens separator i ∧ ¬MarkAt tokens close i

theorem not_closes_and_isMark_iff {i : ℕ} :
    (¬Closes close ((ofTokens tokens).drop i) ∧
      ((ofTokens tokens).drop i).current.isMark separator = true) ↔
    SeparatorAt tokens close separator i := by
  rw [SeparatorAt, markAt_iff, markAt_iff, and_comm]
  refine and_congr_right fun hm => not_congr ⟨fun h => h.resolve_left fun he => ?_, .inr⟩
  simp [Token.isEof, (Token.isMark_iff.1 hm).1] at he

/-- Behind an element the others follow one by one, each behind its separator. -/
theorem repeated_nextElement_iff (hE : E.Forward) (file : String) {e₀ : ℕ}
    (he₀ : e₀ ≤ (ofTokens tokens).size) {as : List α} {c : Cursor} :
    repeated (nextElement close separator E) ((ofTokens tokens).drop e₀) = .ok as c ↔
      ∃ e : ℕ → ℕ, e 0 = e₀ ∧
        (∀ i (h : i < as.length), SeparatorAt tokens close separator (e i) ∧
          ¬MarkAt tokens close (e i + 1) ∧ E.Gives tokens file (e i + 1) as[i] (e (i + 1))) ∧
        (Closes close ((ofTokens tokens).drop (e as.length)) ∧
            c = (ofTokens tokens).drop (e as.length) ∨
          SeparatorAt tokens close separator (e as.length) ∧
            MarkAt tokens close (e as.length + 1) ∧
            c = (ofTokens tokens).drop (e as.length + 1)) := by
  have ht : ∀ n, TakesBelow n (nextElement close separator E) := fun n =>
    takesBelow_nextElement_of_size_le close separator fun c a c' _ h => by
      obtain ⟨k, rfl⟩ := hE h
      simp
  have hs := stopsAtEnd_nextElement close separator (e := E)
  -- The elements behind the first one are those of a shorter list, from where that one stops.
  induction as generalizing e₀ with
  | nil =>
    rw [repeated_eq_ok ht hs, nextElement_eq_ok, next_drop, ← markAt_iff]
    constructor
    · rintro (⟨h, -⟩ | ⟨_, _, _, -, -, has⟩)
      · refine ⟨fun _ => e₀, rfl, nofun, ?_⟩
        rcases h with ⟨hcl, -, rfl⟩ | ⟨hcl, hsep, ⟨hclose, -, rfl⟩ | ⟨-, _, -, ho⟩⟩
        · exact .inl ⟨hcl, rfl⟩
        · exact .inr ⟨not_closes_and_isMark_iff.1 ⟨hcl, markAt_iff.1 hsep⟩, markAt_iff.2 hclose, rfl⟩
        · simp at ho
      · simp at has
    · rintro ⟨e, rfl, -, ⟨hcl, rfl⟩ | ⟨hsep, hclose, rfl⟩⟩
      · exact .inl ⟨.inl ⟨hcl, rfl, rfl⟩, rfl⟩
      · obtain ⟨hcl, -⟩ := not_closes_and_isMark_iff.2 hsep
        exact .inl ⟨.inr ⟨hcl, hsep.1, .inl ⟨markAt_iff.1 hclose, rfl, rfl⟩⟩, rfl⟩
  | cons a as ih =>
    rw [repeated_eq_ok ht hs]
    constructor
    · rintro (⟨-, has⟩ | ⟨a, c₁, as, h, hrest, has⟩)
      · simp at has
      · obtain ⟨rfl, rfl⟩ := List.cons.inj has
        rcases nextElement_eq_ok.1 h with ⟨-, ho, -⟩ | ⟨hcl, hm, ⟨-, ho, -⟩ | ⟨hn, a, ha, ho⟩⟩
        · simp at ho
        · simp at ho
        · obtain rfl := Option.some.inj ho
          have hsep := not_closes_and_isMark_iff.1 ⟨hcl, hm⟩
          rw [next_drop] at hn ha
          obtain ⟨e₁, he₁, hgives, rfl⟩ := hE.exists_gives file hsep.1.lt ha
          obtain ⟨e, rfl, hitems, hend⟩ := (ih he₁).1 hrest
          refine ⟨fun i => i.casesOn e₀ e, rfl, fun i hi => ?_, hend⟩
          cases i with
          | zero => exact ⟨hsep, by simpa [markAt_iff] using hn, hgives⟩
          | succ i => exact hitems i (Nat.lt_of_succ_lt_succ hi)
    · rintro ⟨e, rfl, hitems, hend⟩
      obtain ⟨hsep, hn, hgives⟩ := hitems 0 (Nat.succ_pos _)
      obtain ⟨he₁, ha⟩ := (hE.gives_iff hsep.1.lt).1 hgives
      obtain ⟨hcl, hm⟩ := not_closes_and_isMark_iff.2 hsep
      refine .inr ⟨a, _, as, nextElement_eq_ok.2 (.inr ⟨hcl, hm, .inr ⟨?_, a, ?_, rfl⟩⟩),
        (ih he₁).2 ⟨fun i => e (i + 1), rfl, fun i hi => hitems (i + 1) (Nat.succ_lt_succ hi), hend⟩,
        rfl⟩
      · rw [next_drop]
        simpa [markAt_iff] using hn
      · rwa [next_drop]

theorem forward_items (hE : E.Forward) (close separator : Char) :
    (repeated (nextElement close separator E)).Forward := by
  intro c as c' h
  have hc : ofTokens c.tokens = c := ofTokens_append rfl
  rw [← drop_zero c, ← hc, repeated_nextElement_iff hE "" (Nat.zero_le _), hc] at h
  obtain ⟨e, -, -, ⟨-, rfl⟩ | ⟨-, -, rfl⟩⟩ := h <;> exact ⟨_, rfl⟩

theorem forward_elements (hE : E.Forward) (close separator : Char) :
    (elements close separator E).Forward := by
  intro c as c' h
  rcases (elements_eq_ok close separator).1 h with ⟨-, -, rfl⟩ | ⟨-, a, c₁, as, ha, hitems, -⟩
  · exact ⟨0, rfl⟩
  · obtain ⟨j, rfl⟩ := hE ha
    obtain ⟨k, rfl⟩ := forward_items hE close separator hitems
    exact ⟨j + k, drop_drop ..⟩

theorem forward_delimited (hE : E.Forward) (opening close separator : Char) :
    (delimited opening close separator E).Forward := by
  intro c as c' h
  obtain ⟨-, c₁, has, -, rfl⟩ := delimited_eq_ok.1 h
  obtain ⟨k, rfl⟩ := forward_elements hE close separator has
  exact ⟨1 + k + 1, by simp only [← drop_one, drop_drop]⟩

/-- A list is read where its elements are, between its opening and its closing mark. -/
theorem gives_delimited_iff (hE : E.Forward) {p q : ℕ} {opening : Char} {vs : List α} :
    (delimited opening close separator E).Gives tokens file p vs q ↔
      MarkAt tokens opening p ∧ ∃ k, elements close separator E
        ((ofTokens tokens).drop (p + 1)) = .ok vs ((ofTokens tokens).drop k) ∧
          MarkAt tokens close k ∧ q = k + 1 := by
  have hD := forward_delimited hE opening close separator
  constructor
  · intro h
    obtain ⟨c', hrun, -⟩ := TokenStream.run_eq_ok_iff.1 h
    have hopen : MarkAt tokens opening p := markAt_iff.2 (delimited_eq_ok.1 hrun).1
    obtain ⟨hq, hrun⟩ := (hD.gives_iff hopen.lt.le).1 h
    obtain ⟨-, c, hel, hclose, hend⟩ := delimited_eq_ok.1 hrun
    rw [next_drop] at hel
    obtain ⟨k, -, -, rfl⟩ := (forward_elements hE close separator).exists_gives file hopen.lt hel
    have hclose := markAt_iff.2 hclose
    rw [next_drop] at hend
    exact ⟨hopen, k, hel, hclose, (drop_inj hclose.lt hq hend).symm⟩
  · rintro ⟨hopen, k, hel, hclose, rfl⟩
    refine (hD.gives_iff hopen.lt.le).2 ⟨hclose.lt, delimited_eq_ok.2 ⟨markAt_iff.1 hopen, _, ?_,
      markAt_iff.1 hclose, next_drop _ _⟩⟩
    rw [next_drop]
    exact hel

/-- The elements of a list begin and end where its separators and its closing mark leave room. -/
theorem elements_iff (hE : E.Forward) (file : String) {k : ℕ}
    (hk : k ≤ (ofTokens tokens).size) {vs : List α} (hvs : vs ≠ []) {c : Cursor} :
    elements close separator E ((ofTokens tokens).drop k) = .ok vs c ↔
      ∃ b e : ℕ → ℕ, b 0 = k ∧
        (∃ t, (withEndMark tokens)[b 0]? = some t ∧ t.isEof = false) ∧
        (∀ i (h : i < vs.length),
          ¬MarkAt tokens close (b i) ∧ E.Gives tokens file (b i) vs[i] (e i)) ∧
        (∀ i, i + 1 < vs.length →
          SeparatorAt tokens close separator (e i) ∧ b (i + 1) = e i + 1) ∧
        (Closes close ((ofTokens tokens).drop (e (vs.length - 1))) ∧
            c = (ofTokens tokens).drop (e (vs.length - 1)) ∨
          SeparatorAt tokens close separator (e (vs.length - 1)) ∧
            MarkAt tokens close (e (vs.length - 1) + 1) ∧
            c = (ofTokens tokens).drop (e (vs.length - 1) + 1)) := by
  have hfirst : ¬Closes close ((ofTokens tokens).drop k) ↔
      (∃ t, (withEndMark tokens)[k]? = some t ∧ t.isEof = false) ∧ ¬MarkAt tokens close k := by
    rw [exists_token_iff fun _ => by simp [EndMark.token, Token.isEof], markAt_iff, Closes]
    simp
  obtain ⟨v, vs, rfl⟩ := List.exists_cons_of_ne_nil hvs
  rw [elements_eq_ok]
  constructor
  · rintro (⟨-, has, -⟩ | ⟨hcl, v, c₁, vs, hv, hitems, has⟩)
    · simp at has
    · obtain ⟨rfl, rfl⟩ := List.cons.inj has
      obtain ⟨e₀, he₀, hgives, rfl⟩ := hE.exists_gives file hk hv
      obtain ⟨e, rfl, hitems, hlast⟩ := (repeated_nextElement_iff hE file he₀).1 hitems
      obtain ⟨heof, hne⟩ := hfirst.1 hcl
      refine ⟨fun i => i.casesOn k fun j => e j + 1, e, rfl, heof, fun i hi => ?_,
        fun i hi => ⟨(hitems i (Nat.lt_of_succ_lt_succ hi)).1, rfl⟩, hlast⟩
      cases i with
      | zero => exact ⟨hne, hgives⟩
      | succ i => exact (hitems i (Nat.lt_of_succ_lt_succ hi)).2
  · rintro ⟨b, e, rfl, heof, hitems, hseps, hlast⟩
    obtain ⟨hne, hgives⟩ := hitems 0 (Nat.succ_pos _)
    obtain ⟨he₀, hv⟩ := (hE.gives_iff hk).1 hgives
    refine .inr ⟨hfirst.2 ⟨heof, hne⟩, v, _, vs, hv,
      (repeated_nextElement_iff hE file he₀).2 ⟨e, rfl, fun i hi => ?_, hlast⟩, rfl⟩
    obtain ⟨hsep, hb⟩ := hseps i (Nat.succ_lt_succ hi)
    exact ⟨hsep, hb ▸ hitems (i + 1) (Nat.succ_lt_succ hi)⟩

/-- A list is read exactly where it has its marks and separators, and its elements are read one
behind the other. -/
theorem delimited_gives_iff (hE : E.Forward) {p : ℕ} {opening : Char} {vs : List α} {q : ℕ} :
    (delimited opening close separator E).Gives tokens file p vs q ↔
      MarkAt tokens opening p ∧
        (vs = [] ∧ MarkAt tokens close (p + 1) ∧ q = p + 2 ∨
          vs ≠ [] ∧ ∃ b e : ℕ → ℕ, b 0 = p + 1 ∧
            (∃ t, (withEndMark tokens)[b 0]? = some t ∧ t.isEof = false) ∧
            (∀ i (h : i < vs.length),
              ¬MarkAt tokens close (b i) ∧ E.Gives tokens file (b i) vs[i] (e i)) ∧
            (∀ i, i + 1 < vs.length →
              SeparatorAt tokens close separator (e i) ∧ b (i + 1) = e i + 1) ∧
            (MarkAt tokens close (e (vs.length - 1)) ∧ q = e (vs.length - 1) + 1 ∨
              SeparatorAt tokens close separator (e (vs.length - 1)) ∧
                MarkAt tokens close (e (vs.length - 1) + 1) ∧ q = e (vs.length - 1) + 2)) := by
  rw [gives_delimited_iff hE]
  refine and_congr_right fun hopen => ?_
  by_cases hvs : vs = []
  · subst hvs
    constructor
    · rintro ⟨k, hel, hclose, rfl⟩
      rcases (elements_eq_ok close separator).1 hel with ⟨-, -, hk⟩ | ⟨-, _, _, _, -, -, has⟩
      · obtain rfl := hclose.eq_of_drop_eq hk.symm
        exact .inl ⟨rfl, hclose, rfl⟩
      · simp at has
    · rintro (⟨-, hclose, rfl⟩ | ⟨hne, -⟩)
      · exact ⟨p + 1, (elements_eq_ok close separator).2
          (.inl ⟨.inr (markAt_iff.1 hclose), rfl, rfl⟩), hclose, rfl⟩
      · exact absurd rfl hne
  · simp only [elements_iff hE file hopen.lt hvs]
    constructor
    · rintro ⟨k, ⟨b, e, hb, heof, hitems, hseps, hlast⟩, hclose, rfl⟩
      refine .inr ⟨hvs, b, e, hb, heof, hitems, hseps, ?_⟩
      rcases hlast with ⟨-, hk⟩ | ⟨hsep, -, hk⟩
      · obtain rfl := hclose.eq_of_drop_eq hk
        exact .inl ⟨hclose, rfl⟩
      · obtain rfl := hclose.eq_of_drop_eq hk
        exact .inr ⟨hsep, hclose, rfl⟩
    · rintro (⟨hnil, -⟩ | ⟨-, b, e, hb, heof, hitems, hseps, hlast⟩)
      · exact absurd hnil hvs
      · rcases hlast with ⟨hclose, rfl⟩ | ⟨hsep, hclose, rfl⟩
        · exact ⟨_, ⟨b, e, hb, heof, hitems, hseps, .inl ⟨.inr (markAt_iff.1 hclose), rfl⟩⟩,
            hclose, rfl⟩
        · exact ⟨_, ⟨b, e, hb, heof, hitems, hseps, .inr ⟨hsep, hclose, rfl⟩⟩, hclose, rfl⟩

/-- A list of any two tokens, the second one an end mark, with one more separator behind it. -/
theorem delimited_gives_iff_trailing :
    let tokens : List Token := [.detached .number "0", .detached .punctuation "(",
      .detached .number "1", .detached .punctuation ",-", .detached .eof "",
      .detached .punctuation ",", .detached .punctuation ")"]
    advance.Forward ∧ (delimited '(' ')' ',' advance).Gives tokens "s" 1
      [.detached .number "1", .detached .eof ""] 7 := by
  intro tokens
  have hE : advance.Forward := fun c t c' h => by
    obtain ⟨-, rfl⟩ := advance_eq_ok.1 h
    exact ⟨1, c.drop_one.symm⟩
  have hends : ∀ {i : ℕ} {t : Token}, (withEndMark tokens)[i]? = some t →
      t.isMark ')' = false → ¬MarkAt tokens ')' i := by
    rintro i t ht hm ⟨u, hu, hum⟩
    obtain rfl := Option.some.inj (ht.symm.trans hu)
    exact Bool.false_ne_true (hm.symm.trans hum)
  refine ⟨hE, (delimited_gives_iff hE).2 ⟨⟨_, rfl, rfl⟩, .inr ⟨List.cons_ne_nil _ _,
    fun i => 2 * i + 2, fun i => 2 * i + 3, rfl, ⟨_, rfl, rfl⟩, ?_, ?_,
    .inr ⟨⟨⟨_, rfl, rfl⟩, hends rfl rfl⟩, ⟨_, rfl, rfl⟩, rfl⟩⟩⟩⟩
  · rintro (_ | _ | i) hi
    · exact ⟨hends rfl rfl, rfl, rfl⟩
    · exact ⟨hends rfl rfl, rfl, rfl⟩
    · simp at hi
  · rintro (_ | i) hi
    · exact ⟨⟨⟨_, rfl, rfl⟩, hends rfl rfl⟩, rfl⟩
    · simp at hi

end Parser

end ExprLang
