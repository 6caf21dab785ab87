import RemoteQuery.Proofs.Text.Brackets

/-!
# The parenthesis that closes the first one

Outside of quotes a closing parenthesis belongs to the last open one before it. In a text that begins with
a parenthesis, the scan for the enclosing pair stops behind the one that closes it. Where nothing closes
it, the scan runs through, and a parenthesis at the end of the text is taken for its partner although it
stands between quotes or belongs to another one.
-/

namespace RemoteQuery

namespace Brackets

variable {cs inner rest : List Char}

/-- Outside of quotes every parenthesis has its partner. -/
inductive Matched : List Char → Prop
  | nil : Matched []
  | plain {c : Char} {cs : List Char} (hc : ¬ IsMark c) (h : Matched cs) : Matched (c :: cs)
  | quoted {body cs : List Char} (hbody : '\'' ∉ body) (h : Matched cs) :
    Matched ('\'' :: (body ++ '\'' :: cs))
  | pair {inner cs : List Char} (hinner : Matched inner) (h : Matched cs) :
    Matched ('(' :: (inner ++ ')' :: cs))

def FirstPair (cs inner rest : List Char) : Prop :=
  cs = '(' :: (inner ++ ')' :: rest) ∧ Matched inner

theorem Matched.neutral (h : Matched cs) : Neutral cs := by
  induction h with
  | nil => exact neutral_nil
  | plain hc _ ih => exact neutral_cons hc ih
  | @quoted body cs hbody _ ih =>
    have hliteral := (neutral_quoted body).append ih
    rwa [Quoted.chars, Quoted.body_of_not_mem hbody, List.cons_append, List.append_assoc] at hliteral
  | @pair inner cs _ _ hinner hcs =>
    have hpair := hinner.parenthesised.append hcs
    rwa [List.cons_append, List.cons_append, List.append_assoc] at hpair

theorem exists_quote_of_staysOpen_eq_false {depth : Nat} (h : staysOpen true depth cs = false) :
    ∃ body rest, cs = body ++ '\'' :: rest ∧ '\'' ∉ body ∧ staysOpen false depth rest = false := by
  induction cs with
  | nil => cases h
  | cons c cs ih =>
    by_cases hc : c = '\''
    · subst hc
      exact ⟨[], cs, rfl, List.not_mem_nil, by simpa [staysOpen] using h⟩
    · have hcs : staysOpen true depth cs = false := by simpa [staysOpen, hc] using h
      obtain ⟨body, rest, rfl, hbody, hrest⟩ := ih hcs
      refine ⟨c :: body, rest, rfl, fun hm => ?_, hrest⟩
      rcases List.mem_cons.1 hm with he | hm
      · exact hc he.symm
      · exact hbody hm

theorem exists_matched_of_staysOpen_eq_false {depth : Nat} {cs : List Char}
    (h : staysOpen false (depth + 1) cs = false) :
    ∃ inner rest, cs = inner ++ ')' :: rest ∧ Matched inner := by
  -- A scan that stops has met a closing parenthesis for every one that was open, so for the
  -- innermost.
  match cs with
  | [] => cases h
  | c :: cs =>
    by_cases hquote : c = '\''
    · subst hquote
      obtain ⟨body, tail, hcs, hbody, htail⟩ :=
        exists_quote_of_staysOpen_eq_false (by simpa [staysOpen] using h)
      have hshorter : tail.length < cs.length := by
        rw [hcs, List.length_append, List.length_cons]
        omega
      obtain ⟨inner, rest, rfl, hinner⟩ := exists_matched_of_staysOpen_eq_false htail
      exact ⟨_, rest, by simp [hcs], .quoted hbody hinner⟩
    by_cases hopen : c = '('
    · subst hopen
      -- one level deeper the scan stops as well; behind the partner of this one it is back on its level
      have hdeeper : staysOpen false (depth + 1 + 1) cs = false := by simpa [staysOpen] using h
      obtain ⟨first, tail, hcs, hfirst⟩ := exists_matched_of_staysOpen_eq_false hdeeper
      have hshorter : tail.length < cs.length := by
        rw [hcs, List.length_append, List.length_cons]
        omega
      have htail : staysOpen false (depth + 1) tail = false := by
        rw [hcs, hfirst.neutral] at hdeeper
        simpa [staysOpen] using hdeeper
      obtain ⟨inner, rest, rfl, hinner⟩ := exists_matched_of_staysOpen_eq_false htail
      exact ⟨_, rest, by simp [hcs], .pair hfirst hinner⟩
    by_cases hclose : c = ')'
    · subst hclose
      exact ⟨[], cs, rfl, .nil⟩
    · have hcs : staysOpen false (depth + 1) cs = false := by
        simpa [staysOpen, hquote, hopen, hclose] using h
      obtain ⟨inner, rest, rfl, hinner⟩ := exists_matched_of_staysOpen_eq_false hcs
      have hplain : ¬ IsMark c := by
        rintro (rfl | rfl | rfl)
        · exact hquote rfl
        · exact hopen rfl
        · exact hclose rfl
      exact ⟨c :: inner, rest, rfl, .plain hplain hinner⟩
termination_by cs.length

theorem FirstPair.staysOpen_iff (h : FirstPair cs inner rest) :
    staysOpen false 0 cs = true ↔ rest = [] := by
  obtain ⟨rfl, hinner⟩ := h
  have hscan : staysOpen false 0 ('(' :: (inner ++ ')' :: rest)) = staysOpen false 1 (')' :: rest) :=
    hinner.neutral 0 (')' :: rest)
  rw [hscan]
  cases rest with
  | nil => simp [staysOpen]
  | cons c rest => simp [staysOpen]

theorem exists_firstPair (h : staysOpen false 0 ('(' :: cs) = false) :
    ∃ inner rest, FirstPair ('(' :: cs) inner rest := by
  have hscan : staysOpen false (0 + 1) cs = false := by simpa [staysOpen] using h
  obtain ⟨inner, rest, rfl, hinner⟩ := exists_matched_of_staysOpen_eq_false hscan
  exact ⟨inner, rest, rfl, hinner⟩

theorem not_exists_firstPair (h : staysOpen false 1 (inner ++ [')', ')']) = true) :
    ¬ ∃ ds, FirstPair ('(' :: (inner ++ [')'])) ds [] := by
  -- If the scan of what stands behind the first parenthesis goes on over one more closing
  -- parenthesis, the last character does not close it.
  rintro ⟨ds, hcs, hds⟩
  obtain rfl := List.append_cancel_right (List.cons.inj hcs).2
  rw [hds.neutral 0] at h
  simp [staysOpen] at h

theorem enclosed_iff : enclosed cs = true ↔
    (∃ inner, cs = '(' :: (inner ++ [')'])) ∧ staysOpen false 0 cs = true := by
  constructor
  · intro h
    obtain ⟨inner, rfl⟩ := exists_inner_of_enclosed h
    exact ⟨⟨inner, rfl⟩, (Bool.and_eq_true_iff.1 h).2⟩
  · rintro ⟨⟨inner, rfl⟩, hopen⟩
    simp [enclosed, hopen]

theorem strip_ne_self_iff : strip cs ≠ cs ↔ enclosed cs = true := by
  by_cases he : enclosed cs = true
  · refine iff_of_true ?_ he
    obtain ⟨inner, rfl⟩ := exists_inner_of_enclosed he
    intro heq
    have hlength := congrArg List.length heq
    rw [strip, if_pos he] at hlength
    simp at hlength
    omega
  · exact iff_of_false (fun hne => hne (if_neg he)) he

/-- The text begins and ends with parentheses, but nothing in it closes the first one. -/
def Unclosed (cs : List Char) : Prop :=
  (∃ inner, cs = '(' :: (inner ++ [')'])) ∧ ¬ ∃ inner rest, FirstPair cs inner rest

theorem strip_ne_self_iff_firstPair :
    strip cs ≠ cs ↔ (∃ inner, FirstPair cs inner []) ∨ Unclosed cs := by
  rw [strip_ne_self_iff, enclosed_iff]
  constructor
  · rintro ⟨hends, hopen⟩
    by_cases hclosed : ∃ inner rest, FirstPair cs inner rest
    · obtain ⟨inner, rest, hpair⟩ := hclosed
      obtain rfl := hpair.staysOpen_iff.1 hopen
      exact Or.inl ⟨inner, hpair⟩
    · exact Or.inr ⟨hends, hclosed⟩
  · rintro (⟨inner, hpair⟩ | ⟨⟨inner, rfl⟩, hunclosed⟩)
    · exact ⟨⟨inner, hpair.1⟩, hpair.staysOpen_iff.2 rfl⟩
    · refine ⟨⟨inner, rfl⟩, ?_⟩
      cases hscan : staysOpen false 0 ('(' :: (inner ++ [')'])) with
      | true => rfl
      | false => exact absurd (exists_firstPair hscan) hunclosed

theorem FirstPair.strip_ne_self_iff (h : FirstPair cs inner rest) : strip cs ≠ cs ↔ rest = [] := by
  rw [Brackets.strip_ne_self_iff, enclosed_iff, h.staysOpen_iff, and_iff_right_iff_imp]
  rintro rfl
  exact ⟨inner, h.1⟩

end Brackets

open Brackets

theorem stripOuterParens_ne_self (s : String) :
    stripOuterParens s ≠ s ↔ strip s.toList ≠ s.toList := by
  refine not_congr ?_
  rw [stripOuterParens, ← String.toList_inj, String.toList_ofList]

/-- A text loses its first and its last character, or nothing. It loses them exactly when the last character
closes the parenthesis that it begins with, or when nothing closes that one and the text ends with another
closing parenthesis. -/
theorem stripOuterParens_ne_self_iff (s : String) :
    (stripOuterParens s ≠ s ↔ (∃ inner, FirstPair s.toList inner []) ∨ Unclosed s.toList) ∧
    (stripOuterParens s ≠ s → s = "(" ++ stripOuterParens s ++ ")") ∧
    ∀ inner rest, FirstPair s.toList inner rest → (stripOuterParens s ≠ s ↔ rest = []) := by
  simp only [stripOuterParens_ne_self]
  refine ⟨strip_ne_self_iff_firstPair, fun hne => ?_, fun inner rest h => h.strip_ne_self_iff⟩
  rcases strip_eq_self_or s.toList with heq | heq
  · exact absurd heq hne
  · rw [← String.toList_inj, heq]
    simp [stripOuterParens]

theorem stripOuterParens_ne_self_iff_literal :
    stripOuterParens "((a) ne ')(')" ≠ "((a) ne ')(')" ∧
      FirstPair "((a) ne ')(')".toList "(a) ne ')('".toList [] ∧
      "((a) ne ')(')" = "(" ++ stripOuterParens "((a) ne ')(')" ++ ")" := by
  have hpair : FirstPair "((a) ne ')(')".toList "(a) ne ')('".toList [] := by
    refine ⟨rfl, .pair (.plain (by decide) .nil) ?_⟩
    exact .plain (by decide) (.plain (by decide) (.plain (by decide) (.plain (by decide)
      (@Matched.quoted [')', '('] [] (by decide) .nil))))
  obtain ⟨-, hends, hclosed⟩ := stripOuterParens_ne_self_iff "((a) ne ')(')"
  have hne := (hclosed _ _ hpair).2 rfl
  exact ⟨hne, hpair, hends hne⟩

/-- Nothing closes the first parenthesis: the last one belongs to the second, or stands between quotes. The
outer characters are taken off all the same. -/
theorem unclosed_pair_stripped :
    ¬ (stripOuterParens "(()" ≠ "(()" ↔ ∃ inner, FirstPair "(()".toList inner []) ∧
      ¬ (stripOuterParens "(')" ≠ "(')" ↔ ∃ inner, FirstPair "(')".toList inner []) := by
  have hinner : ¬ ∃ inner, FirstPair "(()".toList inner [] :=
    @not_exists_firstPair ['('] (by decide)
  have hquote : ¬ ∃ inner, FirstPair "(')".toList inner [] :=
    @not_exists_firstPair ['\''] (by decide)
  exact ⟨fun h => hinner (h.1 (by decide)), fun h => hquote (h.1 (by decide))⟩

end RemoteQuery
