import ExprLang.Proofs.IndentedLines

/-!
# Steps of the layout

What has been laid out of a text agrees with the state that has been reached: it has as many open
brackets, and its lines are indented for them. Each step of the layout keeps this, so that texts
of plain characters, quotations and brackets in pairs may be put together.
-/
namespace ExprLang

theorem IsOpening.ne {c : Char} (h : IsOpening c) :
    ¬IsClosing c ∧ c ≠ '"' ∧ c ≠ ' ' ∧ c ≠ '\n' := by
  rcases h with rfl | rfl | rfl <;> decide

theorem IsClosing.ne {c : Char} (h : IsClosing c) :
    ¬IsOpening c ∧ c ≠ '"' ∧ c ≠ ' ' ∧ c ≠ '\n' := by
  rcases h with rfl | rfl | rfl <;> decide

/-- A character that is laid out as it is, on the line that has been begun. -/
def IsPlain (c : Char) : Prop :=
  c ≠ '"' ∧ ¬IsOpening c ∧ ¬IsClosing c ∧ c ≠ ',' ∧ c ≠ ' ' ∧ c ≠ '\n'

instance (c : Char) : Decidable (IsPlain c) := inferInstanceAs (Decidable (_ ∧ _ ∧ _ ∧ _ ∧ _ ∧ _))

namespace Indentation

/-- Each bracket that a text closes is open. -/
def ClosesOpen (s : Indentation) (text : List Char) : Prop :=
  Throughout (fun front c => (s.after front).quote = .outside → IsClosing c →
    0 < (s.after front).depth) text

/-- What has been laid out agrees with the state that has been reached outside quotations. -/
structure Behind (s : Indentation) (page : List Char) : Prop where
  outside : s.quote = .outside
  selfContained : SelfContained page
  openBrackets_eq : openBrackets page = s.depth
  /-- A line that is spaces only has as many as it should. -/
  indent : ∀ k ∈ indent? page, k = 2 * s.depth
  aligned : Throughout Aligned page

/-- The line that has been begun is more than spaces. -/
structure Begun (s : Indentation) (page : List Char) : Prop extends Behind s page where
  begun : indent? page = none

/-- A text leads on to a state of some depth in agreement with what has been laid out then. -/
structure Passes (s : Indentation) (page text : List Char) (depth : ℕ) : Prop where
  behind : (s.after text).Behind (page ++ s.laid text)
  depth_eq : (s.after text).depth = depth
  closesOpen : s.ClosesOpen text

/-- The line that has been begun behind a text is more than spaces. -/
structure Prints (s : Indentation) (page text : List Char) (depth : ℕ) : Prop
    extends Passes s page text depth where
  begun : indent? (page ++ s.laid text) = none

variable {s s' : Indentation} {page text front back : List Char} {c : Char} {depth depth' : ℕ}

theorem closesOpen_cons : s.ClosesOpen (c :: text) ↔
    (s.quote = .outside → IsClosing c → 0 < s.depth) ∧ (s.step c).1.ClosesOpen text :=
  throughout_cons

theorem closesOpen_append : s.ClosesOpen (front ++ back) ↔
    s.ClosesOpen front ∧ (s.after front).ClosesOpen back := by
  simp [ClosesOpen, throughout_append, after_append]

theorem behind_initial : initial.Behind [] where
  outside := rfl
  selfContained := .nil
  openBrackets_eq := openBrackets_nil
  indent := by simp [indent?, initial]
  aligned := throughout_nil

theorem Passes.append (h : s.Passes page front depth)
    (h' : (s.after front).Passes (page ++ s.laid front) back depth') :
    s.Passes page (front ++ back) depth' where
  behind := by
    rw [after_append, laid_append, ← List.append_assoc]
    exact h'.behind
  depth_eq := by
    rw [after_append]
    exact h'.depth_eq
  closesOpen := closesOpen_append.2 ⟨h.closesOpen, h'.closesOpen⟩

theorem Passes.append_prints (h : s.Passes page front depth)
    (h' : (s.after front).Prints (page ++ s.laid front) back depth') :
    s.Prints page (front ++ back) depth' where
  toPasses := h.append h'.toPasses
  begun := by
    rw [laid_append, ← List.append_assoc]
    exact h'.begun

theorem Prints.to_begun (h : s.Prints page text depth) :
    (s.after text).Begun (page ++ s.laid text) :=
  ⟨h.behind, h.begun⟩

theorem laid_singleton (s : Indentation) (c : Char) : s.laid [c] = (s.step c).2 := by
  rw [laid, laid, List.append_nil]

theorem passes_singleton (h : (s.step c).1.Behind (page ++ (s.step c).2))
    (hdepth : (s.step c).1.depth = depth) (hopen : IsClosing c → 0 < s.depth) :
    s.Passes page [c] depth where
  behind := by rwa [laid_singleton]
  depth_eq := hdepth
  closesOpen := closesOpen_cons.2 ⟨fun _ => hopen, throughout_nil⟩

theorem prints_singleton (h : (s.step c).1.Begun (page ++ (s.step c).2))
    (hdepth : (s.step c).1.depth = depth) (hopen : IsClosing c → 0 < s.depth) :
    s.Prints page [c] depth where
  toPasses := passes_singleton h.toBehind hdepth hopen
  begun := by
    rw [laid_singleton]
    exact h.begun

namespace Behind

variable (h : s.Behind page)
include h

theorem congr (hs : s'.quote = .outside) (hdepth : s'.depth = s.depth) : s'.Behind page where
  outside := hs
  selfContained := h.selfContained
  openBrackets_eq := by rw [hdepth, h.openBrackets_eq]
  indent := by rw [hdepth]; exact h.indent
  aligned := h.aligned

theorem write (hs : s'.quote = .outside) (hself : SelfContained text)
    (hdepth : s.depth + openBrackets text = s'.depth)
    (hindent : ∀ k ∈ indent? (page ++ text), k = 2 * s'.depth)
    (haligned : Throughout (fun front => Aligned (page ++ front)) text) :
    s'.Behind (page ++ text) where
  outside := hs
  selfContained := h.selfContained.append hself
  openBrackets_eq := by rw [h.selfContained.openBrackets_append, h.openBrackets_eq, hdepth]
  indent := hindent
  aligned := throughout_append.2 ⟨h.aligned, haligned⟩

/-- A character that closes no bracket may stand behind what has been laid out. -/
theorem aligned_of_not_closing (hc : ¬IsClosing c) : Aligned page c := by
  intro _ _ k hk
  rw [openAt, if_neg hc, h.openBrackets_eq, h.indent k hk]
  push_cast
  rfl

/-- A part of a line that closes no bracket at its start is written. -/
theorem write_cons (hs : s'.quote = .outside) (hself : SelfContained (c :: text))
    (hdepth : s.depth + openBrackets (c :: text) = s'.depth) (hc : ¬IsClosing c)
    (hspace : c ≠ ' ') (hline : ∀ d ∈ c :: text, d ≠ '\n') : s'.Begun (page ++ c :: text) := by
  obtain ⟨hnewline, htext⟩ := List.forall_mem_cons.1 hline
  have hbegun : indent? (page ++ [c]) = none := by simp [indent?_concat, hnewline, hspace]
  have hnone : indent? (page ++ c :: text) = none := by
    rw [List.append_cons]
    exact indent?_append_of_none hbegun htext
  have haligned : Throughout (fun front => Aligned (page ++ front)) (c :: text) := by
    refine throughout_cons.2 ⟨by simpa using h.aligned_of_not_closing hc, ?_⟩
    simpa using throughout_aligned_of_none hbegun htext
  exact ⟨h.write hs hself hdepth (by simp [hnone]) haligned, hnone⟩

theorem write_newLine : s.Behind (page ++ newLine s.depth) := by
  refine h.write h.outside (.of_ne newLine_ne_quote) ?_ ?_ ?_
  · rw [openBrackets_newLine, add_zero]
  · simp [indent?_newLine]
  · exact throughout_aligned_of_spacing fun _ => eq_of_mem_newLine

/-- A character is written that ends its line. -/
theorem write_break (hs : s'.quote = .outside) (hdepth : s.depth + bracketWeight c = s'.depth)
    (hc : ¬IsClosing c ∧ c ≠ '"' ∧ c ≠ ' ' ∧ c ≠ '\n') :
    s'.Behind (page ++ c :: newLine s'.depth) := by
  obtain ⟨hclosing, hquote, hspace, hnewline⟩ := hc
  have hself : SelfContained [c] := .of_ne (by simpa using hquote)
  have hopen : s.depth + openBrackets [c] = s'.depth := by
    rw [openBrackets_singleton hquote, hdepth]
  have hbegun := h.write_cons hs hself hopen hclosing hspace (by simpa using hnewline)
  rw [List.append_cons]
  exact hbegun.write_newLine

/-- A closing bracket is written on a line of its own. -/
theorem write_closing (hs : s'.quote = .outside) (hdepth : s.depth = s'.depth + 1)
    (hc : IsClosing c) : s'.Begun (page ++ (newLine s'.depth ++ [c])) := by
  obtain ⟨hopening, hquote, hspace, hnewline⟩ := hc.ne
  have hline : SelfContained (newLine s'.depth) := .of_ne newLine_ne_quote
  have hself : SelfContained (newLine s'.depth ++ [c]) :=
    hline.append (.of_ne (by simpa using hquote))
  have hopen : s.depth + openBrackets (newLine s'.depth ++ [c]) = s'.depth := by
    rw [hline.openBrackets_append, openBrackets_newLine, openBrackets_singleton hquote,
      bracketWeight, if_neg hopening, if_pos hc, hdepth]
    push_cast
    ring
  have hnone : indent? (page ++ (newLine s'.depth ++ [c])) = none := by
    simp [← List.append_assoc, indent?_concat, hspace, hnewline]
  have hbracket : Aligned (page ++ newLine s'.depth) c := by
    intro _ _ k hk
    obtain rfl : 2 * s'.depth = k := by simpa [indent?_newLine] using hk
    rw [openAt, if_pos hc, List.append_assoc, h.selfContained.openBrackets_append,
      h.openBrackets_eq, hopen]
    push_cast
    rfl
  have haligned : Throughout (fun front => Aligned (page ++ front)) (newLine s'.depth ++ [c]) := by
    refine throughout_append.2 ⟨throughout_aligned_of_spacing fun _ => eq_of_mem_newLine, ?_⟩
    exact throughout_cons.2 ⟨by simpa using hbracket, throughout_nil⟩
  exact ⟨h.write hs hself hopen (by simp [hnone]) haligned, hnone⟩

theorem passes_opening (hc : IsOpening c) :
    s.Passes page [c] (s.depth + 1) ∧ (s.after [c]).dropsSpace = true := by
  have hstep := step_opening h.outside hc
  have hweight : bracketWeight c = 1 := if_pos hc
  have hwrite : (s.step c).1.Behind (page ++ (s.step c).2) := by
    rw [hstep]
    exact h.write_break h.outside (by simp [hweight]) hc.ne
  rw [after, after, hstep]
  exact ⟨passes_singleton hwrite (by rw [hstep]) fun hclosing => absurd hclosing hc.ne.1, rfl⟩

theorem passes_comma : s.Passes page [','] s.depth ∧ (s.after [',']).dropsSpace = true := by
  have hstep := step_comma h.outside
  have hweight : bracketWeight ',' = 0 := rfl
  have hwrite : (s.step ',').1.Behind (page ++ (s.step ',').2) := by
    rw [hstep]
    exact h.write_break h.outside (by simp [hweight]) (by decide)
  rw [after, after, hstep]
  exact ⟨passes_singleton hwrite (by rw [hstep]) fun hclosing => absurd hclosing (by decide), rfl⟩

theorem prints_closing (hc : IsClosing c) (hpos : 0 < s.depth) :
    s.Prints page [c] (s.depth - 1) := by
  have hstep := step_closing h.outside hc
  have hwrite : (s.step c).1.Begun (page ++ (s.step c).2) := by
    have hdepth : s.depth = s.depth - 1 + 1 := by omega
    rw [hstep]
    exact h.write_closing h.outside hdepth hc
  exact prints_singleton hwrite (by rw [hstep]) fun _ => hpos

/-- The space behind a line break is left out. -/
theorem passes_space (hdrops : s.dropsSpace = true) : s.Passes page [' '] s.depth := by
  have hstep : s.step ' ' = ({ s with dropsSpace := false }, []) := by
    rw [step_space h.outside, if_pos hdrops]
  refine passes_singleton ?_ (by rw [hstep]) fun hclosing => absurd hclosing (by decide)
  rw [hstep, List.append_nil]
  exact h.congr h.outside rfl

end Behind

/-- On a line that is more than spaces it does not matter whether a space is left out. -/
theorem Begun.prints_space (h : s.Begun page) : s.Prints page [' '] s.depth := by
  have hstep := step_space h.outside
  have hwrite : (s.step ' ').1.Begun (page ++ (s.step ' ').2) := by
    rw [hstep]
    cases s.dropsSpace with
    | true =>
      rw [if_pos rfl, List.append_nil]
      exact ⟨h.congr h.outside rfl, h.begun⟩
    | false =>
      have hnone : indent? (page ++ [' ']) = none := by simp [indent?_concat, h.begun]
      have hopen : s.depth + openBrackets [' '] = s.depth := by
        rw [openBrackets_singleton (by decide)]
        exact add_zero _
      exact ⟨h.write h.outside (.of_ne (by simp)) hopen (by simp [hnone])
        (throughout_aligned_of_spacing (by simp)), hnone⟩
  exact prints_singleton hwrite (by rw [hstep]) fun hclosing => absurd hclosing (by decide)

/-- Plain characters stay as they are. -/
theorem plain_spec (hs : s.quote = .outside) (h : ∀ c ∈ text, IsPlain c) :
    (s.after text).quote = .outside ∧ (s.after text).depth = s.depth ∧ s.laid text = text ∧
      s.ClosesOpen text := by
  induction text generalizing s with
  | nil => exact ⟨hs, rfl, rfl, throughout_nil⟩
  | cons c text ih =>
    obtain ⟨⟨hquote, hopening, hclosing, hcomma, hspace, -⟩, htext⟩ := List.forall_mem_cons.1 h
    have hstep := step_plain hs hquote hopening hclosing hcomma hspace
    have hs' : (s.step c).1.quote = .outside := by rw [hstep]; exact hs
    obtain ⟨houtside, hdepth, hlaid, hcloses⟩ := ih hs' htext
    refine ⟨houtside, ?_, ?_, closesOpen_cons.2 ⟨fun _ hc => absurd hc hclosing, hcloses⟩⟩
    · rw [after, hdepth, hstep]
    · rw [laid, hlaid, hstep, List.singleton_append]

section Bodies

variable {body : List Char} (h : IsBody '"' body) (depth : ℕ) (drops : Bool)
include h

theorem after_body :
    after ⟨depth, drops, .inside⟩ (body ++ ['"']) = ⟨depth, drops, .outside⟩ := by
  induction h with
  | nil => rfl
  | plain hq hb _ ih => rw [List.cons_append, after, step_inside hq hb, ih]
  | escaped _ _ ih => exact ih

theorem laid_body : laid ⟨depth, drops, .inside⟩ (body ++ ['"']) = body ++ ['"'] := by
  rw [laid_inside, insideQuotes_body h, laid, List.append_nil]

/-- The brackets in quotations close nothing. -/
theorem closesOpen_body : ClosesOpen ⟨depth, drops, .inside⟩ (body ++ ['"']) := by
  induction h with
  | nil => exact closesOpen_cons.2 ⟨by simp, throughout_nil⟩
  | plain hq hb _ ih =>
    refine closesOpen_cons.2 ⟨by simp, ?_⟩
    rwa [step_inside hq hb]
  | escaped _ _ ih =>
    exact closesOpen_cons.2 ⟨by simp, closesOpen_cons.2 ⟨by simp [step, QuoteState.after], ih⟩⟩

end Bodies

/-- A text leads back to the depth that it started from, on a line that is more than spaces. -/
def Fills (text : List Char) : Prop := ∀ s page, Behind s page → s.Prints page text s.depth

/-- A text may stand behind a line break, and leads back to the depth that it started from. -/
def FollowsBreak (text : List Char) : Prop :=
  ∀ s page, Behind s page → s.dropsSpace = true → s.Passes page text s.depth

namespace Fills

theorem plain (hne : text ≠ []) (h : ∀ c ∈ text, IsPlain c) : Fills text := by
  intro s page hbehind
  obtain ⟨houtside, hdepth, hlaid, hcloses⟩ := plain_spec hbehind.outside h
  have hself : SelfContained text := .of_ne fun c hc => (h c hc).1
  have hweight : openBrackets text = 0 := by
    rw [openBrackets_of_ne fun c hc => (h c hc).1]
    refine List.sum_eq_zero fun w hw => ?_
    obtain ⟨c, hc, rfl⟩ := List.mem_map.1 hw
    obtain ⟨-, hopening, hclosing, -⟩ := h c hc
    rw [bracketWeight, if_neg hopening, if_neg hclosing]
  have hopen : s.depth + openBrackets text = (s.after text).depth := by
    rw [hweight, hdepth, add_zero]
  have hwrite : (s.after text).Begun (page ++ text) := by
    obtain ⟨c, rest, rfl⟩ := List.exists_cons_of_ne_nil hne
    obtain ⟨-, -, hclosing, -, hspace, -⟩ := h c (List.mem_cons_self ..)
    exact hbehind.write_cons houtside hself hopen hclosing hspace fun c hc => (h c hc).2.2.2.2.2
  refine ⟨⟨?_, hdepth, hcloses⟩, ?_⟩
  · rw [hlaid]
    exact hwrite.toBehind
  · rw [hlaid]
    exact hwrite.begun

theorem quotation {body : List Char} (h : IsBody '"' body) (hline : ∀ c ∈ body, c ≠ '\n') :
    Fills ('"' :: (body ++ ['"'])) := by
  rintro ⟨depth, drops, quote⟩ page hbehind
  obtain rfl : quote = .outside := hbehind.outside
  have hafter : after ⟨depth, drops, .outside⟩ ('"' :: (body ++ ['"'])) =
      ⟨depth, drops, .outside⟩ := after_body h depth drops
  have hlaid : laid ⟨depth, drops, .outside⟩ ('"' :: (body ++ ['"'])) =
      '"' :: (body ++ ['"']) := congrArg ('"' :: ·) (laid_body h depth drops)
  have hcloses : ClosesOpen ⟨depth, drops, .outside⟩ ('"' :: (body ++ ['"'])) :=
    closesOpen_cons.2 ⟨fun _ hclosing => absurd hclosing (by decide), closesOpen_body h depth drops⟩
  have hunbroken : ∀ c ∈ '"' :: (body ++ ['"']), c ≠ '\n' :=
    List.forall_mem_cons.2 ⟨by decide, List.forall_mem_append.2 ⟨hline, by simp⟩⟩
  have hwrite := hbehind.write_cons hbehind.outside (selfContained_body h)
    (by rw [openBrackets_body h, add_zero]) (by decide) (by decide) hunbroken
  refine ⟨⟨?_, by rw [hafter], hcloses⟩, ?_⟩
  · rw [hafter, hlaid]
    exact hwrite.toBehind
  · rw [hlaid]
    exact hwrite.begun

theorem append (h : Fills front) (h' : Fills back) : Fills (front ++ back) := by
  intro s page hbehind
  have hfront := h s page hbehind
  have hback := h' _ _ hfront.behind
  rw [hfront.depth_eq] at hback
  exact hfront.append_prints hback

theorem append_space (h : Fills text) : Fills (text ++ [' ']) := by
  intro s page hbehind
  have htext := h s page hbehind
  have hspace := htext.to_begun.prints_space
  rw [htext.depth_eq] at hspace
  exact htext.append_prints hspace

theorem append_comma (h : Fills front) (h' : Fills back) :
    Fills (front ++ ([','] ++ ([' '] ++ back))) := by
  intro s page hbehind
  have hfront := h s page hbehind
  obtain ⟨hcomma, hdrops⟩ := hfront.behind.passes_comma
  have hspace := hcomma.behind.passes_space hdrops
  have hback := h' _ _ hspace.behind
  rw [hspace.depth_eq, hcomma.depth_eq, hfront.depth_eq] at hback
  exact hfront.append_prints (hcomma.append_prints (hspace.append_prints hback))

theorem intercalate {texts : List (List Char)} (hne : texts ≠ [])
    (h : ∀ text ∈ texts, Fills text) : Fills ([',', ' '].intercalate texts) := by
  induction texts with
  | nil => exact absurd rfl hne
  | cons text texts ih =>
    obtain ⟨htext, htexts⟩ := List.forall_mem_cons.1 h
    cases texts with
    | nil => simpa using htext
    | cons next texts =>
      rw [List.intercalate_cons_cons]
      simpa using htext.append_comma (ih (List.cons_ne_nil _ _) htexts)

theorem followsBreak (h : Fills text) : FollowsBreak text :=
  fun s page hbehind _ => (h s page hbehind).toPasses

theorem cons_space (h : Fills text) : FollowsBreak (' ' :: text) := by
  intro s page hbehind hdrops
  have hspace := hbehind.passes_space hdrops
  have htext := (h _ _ hspace.behind).toPasses
  rw [hspace.depth_eq] at htext
  exact hspace.append htext

end Fills

namespace FollowsBreak

theorem nil : FollowsBreak [] :=
  fun _ _ hbehind _ => ⟨by simpa [laid, after] using hbehind, rfl, throughout_nil⟩

theorem intercalate {texts : List (List Char)} (h : ∀ text ∈ texts, Fills text) :
    FollowsBreak ([',', ' '].intercalate texts) := by
  by_cases hne : texts = []
  · rw [hne]
    exact nil
  · exact (Fills.intercalate hne h).followsBreak

theorem bracketed {opening closing : Char} (h : FollowsBreak text) (ho : IsOpening opening)
    (hc : IsClosing closing) : Fills ([opening] ++ (text ++ [closing])) := by
  intro s page hbehind
  obtain ⟨hopening, hdrops⟩ := hbehind.passes_opening ho
  have htext := h _ _ hopening.behind hdrops
  rw [hopening.depth_eq] at htext
  have hpos : 0 < ((s.after [opening]).after text).depth := by
    rw [htext.depth_eq]
    exact Nat.succ_pos _
  have hclosing := htext.behind.prints_closing hc hpos
  rw [htext.depth_eq, Nat.add_sub_cancel] at hclosing
  exact hopening.append_prints (htext.append_prints hclosing)

end FollowsBreak

end Indentation

end ExprLang
