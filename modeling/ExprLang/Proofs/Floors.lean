import ExprLang.Proofs.Chains
import ExprLang.Proofs.Reading

/-!
# Floors

The links of a chain are read one after the other, and their tree is built when the last one has
been read. Climbing comes to the same: the right operand of an operator is read with the strength
of that operator as floor, and the operation that it makes is the left operand from then on. The
values agree, and so do the complaints and the places where reading stops.
-/
namespace ExprLang.Parser

variable {c c' : Cursor} {floor strength : ℕ} {l : Link} {ls : List Link}

/-- The links behind an operand that are stronger than `floor`. -/
def links (floor : ℕ) : Parser (List Link) := repeated (Rule.link expression floor)

/-- One turn of climbing behind a left operand. It takes an operator that is stronger than `floor`
and leaves to `recur` what follows: the right operand, and then the rest of the chain. -/
def climb (recur : ℕ → Expr → Parser Expr) (floor : ℕ) (left : Expr) : Parser Expr := do
  let t ← current
  if t.kind = .operator then
    match precedence? t.value with
    | none => fail .unknownOperator
    | some strength =>
      if strength ≤ floor then return left
      else
        expectOperator t.value
        let operand ← required atom
        let right ← recur strength operand
        recur floor (joined t.value left right)
  else return left

section Link

theorem link_eq_some : Rule.link expression floor c = .ok (some l) c' ↔
    c.current.kind = .operator ∧ c.current.value = l.operator ∧
      precedence? l.operator = some l.strength ∧ floor < l.strength ∧
      Rule.atom expression c.next = .ok (some l.operand) c' := by
  rw [Rule.link_eq_ok]
  constructor
  · rintro (⟨-, ho, -⟩ | ⟨hk, s, hs, ⟨-, ho, -⟩ | ⟨hlt, e, he, ho⟩⟩)
    · simp at ho
    · simp at ho
    · obtain rfl := Option.some.inj ho
      exact ⟨hk, rfl, hs, hlt, he⟩
  · rintro ⟨hk, hv, hs, hlt, he⟩
    refine .inr ⟨hk, l.strength, hv ▸ hs, .inr ⟨hlt, l.operand, he, ?_⟩⟩
    rw [hv]

theorem eq_of_link_eq_none (h : Rule.link expression floor c = .ok none c') : c = c' := by
  obtain ⟨-, -, hc⟩ | ⟨-, _, -, ⟨-, -, hc⟩ | ⟨-, _, -, ho⟩⟩ := Rule.link_eq_ok.1 h
  · exact hc
  · exact hc
  · simp at ho

theorem size_lt_of_link (h : Rule.link expression floor c = .ok (some l) c') :
    c'.size < c.size :=
  takesBelow_link floor _ c.size.lt_succ_self h

/-- A link is read alike with a higher floor, or not read at all. -/
theorem link_of_le (h : floor ≤ strength) (c : Cursor) :
    Rule.link expression strength c = Rule.link expression floor c ∨
      Rule.link expression strength c = .ok none c := by
  by_cases hk : c.current.kind = .operator
  · cases hp : precedence? c.current.value with
    | none => exact .inl (by simp [Rule.link, hk, hp, bind_apply, current])
    | some s =>
      by_cases hs : s ≤ strength
      · exact .inr (Rule.link_eq_ok.2 (.inr ⟨hk, s, hp, .inl ⟨hs, rfl, rfl⟩⟩))
      · have hs' : ¬s ≤ floor := by omega
        exact .inl (by simp [Rule.link, hk, hp, hs, hs', bind_apply, current])
  · exact .inr (Rule.link_eq_ok.2 (.inl ⟨hk, rfl, rfl⟩))

/-- A turn of climbing reads one link. -/
theorem climb_eq (recur : ℕ → Expr → Parser Expr) (floor : ℕ) (left : Expr) :
    climb recur floor left = Rule.link expression floor >>= fun o =>
      o.elim (pure left) fun l => recur l.strength l.operand >>= fun right =>
        recur floor (joined l.operator left right) := by
  rw [climb, Rule.link, bind_assoc]
  congr 1
  funext t
  split_ifs
  · cases precedence? t.value with
    | none => rfl
    | some strength =>
      simp only
      split_ifs
      · rw [pure_bind]
        rfl
      · simp only [bind_assoc, pure_bind, Option.elim_some]
        rfl
  · rw [pure_bind]
    rfl

end Link

section Links

/-- Links are one link and those behind it, if there is one. -/
theorem links_eq (floor : ℕ) : links floor = Rule.link expression floor >>= fun o =>
    o.elim (pure []) fun l => (l :: ·) <$> links floor := by
  funext c
  rw [links, repeated_apply (takesBelow_link floor _) (Rule.stopsAtEnd_link floor)
    c.size.lt_succ_self, bind_apply, bind_apply]
  cases Rule.link expression floor c with
  | error fault c' => rfl
  | ok o c' => cases o <;> rfl

theorem links_of_error {fault : Fault} (h : Rule.link expression floor c = .error fault c') :
    links floor c = .error fault c' := by
  rw [links_eq, bind_apply, h]

theorem links_of_none (h : Rule.link expression floor c = .ok none c') :
    links floor c = .ok [] c' := by
  rw [links_eq, bind_apply, h]
  rfl

theorem links_of_some (h : Rule.link expression floor c = .ok (some l) c') :
    links floor c = ((l :: ·) <$> links floor) c' := by
  have hc := congrFun (links_eq floor) c
  rwa [bind_apply, h] at hc

/-- The links above a floor are those above a higher one, and the links behind them. -/
theorem links_of_le (h : floor ≤ strength) (c : Cursor) :
    links floor c = (links strength >>= fun front => (front ++ ·) <$> links floor) c := by
  induction hn : c.size using Nat.strongRecOn generalizing c with
  | ind n ih =>
    subst hn
    rw [bind_apply]
    cases hlink : Rule.link expression strength c with
    | error fault c' =>
      have hsame := (link_of_le h c).resolve_right (by simp [hlink])
      rw [links_of_error hlink, links_of_error (hsame.symm.trans hlink)]
    | ok o c' =>
      cases o with
      | none =>
        -- The links above the higher floor end here, those above the other one may not.
        rw [links_of_none hlink, ← eq_of_link_eq_none hlink]
        simp
      | some l =>
        have hsame := (link_of_le h c).resolve_right (by simp [hlink])
        rw [links_of_some hlink, links_of_some (hsame.symm.trans hlink), map_apply, map_apply,
          ih c'.size (size_lt_of_link hlink) c' rfl, bind_apply]
        cases links strength c' with
        | error fault c₁ => rfl
        | ok front c₁ =>
          simp only [map_apply]
          cases links floor c₁ <;> rfl

/-- Links are stronger than their floor, and no other one stands behind them. -/
theorem links_spec (h : links floor c = .ok ls c') :
    (∀ l ∈ ls, floor < l.strength) ∧ Rule.link expression floor c' = .ok none c' := by
  induction ls generalizing c with
  | nil =>
    obtain ⟨hstop, -⟩ | ⟨_, _, _, -, -, hls⟩ := Phrase.repeated_link_eq_ok.1 h
    · exact ⟨nofun, eq_of_link_eq_none hstop ▸ hstop⟩
    · simp at hls
  | cons l ls ih =>
    obtain ⟨-, hls⟩ | ⟨l, c₁, ls, hlink, hrest, heq⟩ := Phrase.repeated_link_eq_ok.1 h
    · simp at hls
    · obtain ⟨rfl, rfl⟩ := List.cons.inj heq
      obtain ⟨hstrong, hstop⟩ := ih hrest
      obtain ⟨-, -, -, hlt, -⟩ := link_eq_some.1 hlink
      exact ⟨List.forall_mem_cons.2 ⟨hlt, hstrong⟩, hstop⟩

/-- Where no link is stronger than a floor, neither is the first of those above another. -/
theorem strength_le_of_links (hstop : Rule.link expression strength c = .ok none c)
    (h : links floor c = .ok ls c') : ∀ l ∈ ls.head?, l.strength ≤ strength := by
  obtain ⟨-, rfl⟩ | ⟨l, c₁, ls, hlink, -, rfl⟩ := Phrase.repeated_link_eq_ok.1 h
  · nofun
  · rintro m ⟨⟩
    obtain ⟨hk, hv, hs, -, he⟩ := link_eq_some.1 hlink
    by_contra! hlt
    simp [link_eq_some.2 ⟨hk, hv, hs, hlt, he⟩] at hstop

end Links

theorem chained_eq_map (floor : ℕ) (left : Expr) :
    chained floor left = ofChain left <$> links floor := by
  rw [map_eq_pure_bind]
  rfl

/-- Behind a first link, its right operand is joined before the rest of the chain. -/
theorem ofChain_links (h : floor ≤ l.strength) (left : Expr) (c : Cursor) :
    ((fun ls => ofChain left (l :: ls)) <$> links floor) c =
      (chained l.strength l.operand >>= fun right =>
        chained floor (joined l.operator left right)) c := by
  rw [map_apply, links_of_le h, chained_eq_map, bind_apply, bind_apply, map_apply]
  cases hfront : links l.strength c with
  | error fault c₁ => rfl
  | ok front c₁ =>
    simp only [chained_eq_map, map_apply]
    cases hback : links floor c₁ with
    | error fault c₂ => rfl
    | ok back c₂ =>
      obtain ⟨hstrong, hstop⟩ := links_spec hfront
      exact congrArg (EStateM.Result.ok · c₂)
        (ofChain_cons hstrong (strength_le_of_links hstop hback))

/-- A chain is read by climbing, whatever the floor and the left operand. -/
theorem chained_eq_climb (floor : ℕ) (left : Expr) :
    chained floor left = climb chained floor left := by
  funext c
  rw [climb_eq, chained_eq_map, map_apply, bind_apply]
  cases hlink : Rule.link expression floor c with
  | error fault c' => rw [links_of_error hlink]
  | ok o c' =>
    cases o with
    | none =>
      rw [links_of_none hlink]
      rfl
    | some l =>
      obtain ⟨-, -, -, hlt, -⟩ := link_eq_some.1 hlink
      refine Eq.trans ?_ (ofChain_links hlt.le left c')
      rw [links_of_some hlink, map_apply, map_apply]
      cases links floor c' <;> rfl

/-- Nothing else reads chains by climbing. -/
theorem eq_chained_iff_climb {f : ℕ → Expr → Parser Expr} :
    f = chained ↔ ∀ floor left, f floor left = climb f floor left := by
  constructor
  · rintro rfl
    exact chained_eq_climb
  · intro hf
    funext floor left c
    induction hn : c.size using Nat.strongRecOn generalizing floor left c with
    | ind n ih =>
      subst hn
      rw [hf, chained_eq_climb, climb_eq, climb_eq, bind_apply, bind_apply]
      cases hlink : Rule.link expression floor c with
      | error fault c' => rfl
      | ok o c' =>
        cases o with
        | none => rfl
        | some l =>
          have hlt := size_lt_of_link hlink
          simp only [Option.elim_some, bind_apply]
          rw [ih c'.size hlt l.strength l.operand c' rfl]
          cases hright : chained l.strength l.operand c' with
          | error fault c₁ => rfl
          | ok right c₁ =>
            have hle : c₁.size ≤ c'.size :=
              (Rule.follows_chained .eq (follows_expression .eq) (fun _ => follows_expression .eq)
                l.strength l.operand).size_le c'.size.lt_succ_self hright
            exact ih c₁.size (hle.trans_lt hlt) floor _ c₁ rfl

end ExprLang.Parser
