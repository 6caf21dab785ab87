import RemoteQuery.Proofs.Text.Brackets

/-!
# Texts that stay different

Texts that differ stay different when the same text is put around both. They need not when both lose
their enclosing parentheses, if one of them was the other in parentheses. No text that is put around
two can make that so. So two texts that differ, neither of which is the other in parentheses, stay
like this when they are put in the same places of a text, and when they are negated.
-/

namespace RemoteQuery

/-- The text made of pieces, where each hole holds `s`. -/
def weave (pieces : List (Option (List Char))) (s : List Char) : List Char :=
  pieces.flatMap (·.getD s)

section Weave

variable {pieces : List (Option (List Char))} {s t : List Char}

theorem weave_cons (p : Option (List Char)) (ps : List (Option (List Char))) (s : List Char) :
    weave (p :: ps) s = p.getD s ++ weave ps s := List.flatMap_cons

theorem exists_count_weave (c : Char) (pieces : List (Option (List Char))) :
    ∃ fixed, ∀ s, (weave pieces s).count c = pieces.count none * s.count c + fixed := by
  induction pieces with
  | nil => exact ⟨0, fun s => by simp [weave]⟩
  | cons p ps ih =>
    obtain ⟨fixed, hf⟩ := ih
    cases p with
    | none =>
      refine ⟨fixed, fun s => ?_⟩
      rw [weave_cons, List.count_append, hf, List.count_cons_self, Option.getD_none, Nat.succ_mul]
      omega
    | some cs =>
      refine ⟨cs.count c + fixed, fun s => ?_⟩
      rw [weave_cons, List.count_append, hf, List.count_cons_of_ne (by simp), Option.getD_some]
      omega

theorem weave_eq_of_count_eq_zero (h : pieces.count none = 0) (s t : List Char) :
    weave pieces s = weave pieces t := by
  induction pieces with
  | nil => rfl
  | cons p ps ih =>
    cases p with
    | none => simp at h
    | some cs => rw [weave_cons, weave_cons, ih (by simpa using h), Option.getD_some, Option.getD_some]

theorem exists_weave_eq (h : none ∈ pieces) :
    ∃ pre rest, pieces.count none = rest.count none + 1 ∧
      ∀ s, weave pieces s = pre ++ (s ++ weave rest s) := by
  induction pieces with
  | nil => cases h
  | cons p ps ih =>
    cases p with
    | none => exact ⟨[], ps, List.count_cons_self, fun s => weave_cons none ps s⟩
    | some cs =>
      obtain ⟨pre, rest, hcount, hw⟩ := ih (by simpa using h)
      refine ⟨cs ++ pre, rest, ?_, fun s => ?_⟩
      · rw [List.count_cons_of_ne (by simp), hcount]
      · rw [weave_cons, hw, List.append_assoc, Option.getD_some]

theorem length_weave_le (h : s.length ≤ t.length) (pieces : List (Option (List Char))) :
    (weave pieces s).length ≤ (weave pieces t).length := by
  induction pieces with
  | nil => exact Nat.le_refl _
  | cons p ps ih =>
    rw [weave_cons, weave_cons, List.length_append, List.length_append]
    cases p with
    | none => exact Nat.add_le_add h ih
    | some cs => exact Nat.add_le_add_left ih _

theorem weave_ne (h : none ∈ pieces) (hne : s ≠ t) : weave pieces s ≠ weave pieces t := by
  obtain ⟨pre, rest, -, hw⟩ := exists_weave_eq h
  intro he
  rw [hw, hw, List.append_cancel_left_eq] at he
  have hlen := congrArg List.length he
  rw [List.length_append, List.length_append] at hlen
  rcases Nat.lt_trichotomy s.length t.length with hl | hl | hl
  · have := length_weave_le (Nat.le_of_lt hl) rest
    omega
  · exact hne (List.append_inj he hl).1
  · have := length_weave_le (Nat.le_of_lt hl) rest
    omega

end Weave

namespace Brackets

variable {s t : List Char}

def parenthesised (s : List Char) : List Char := '(' :: s ++ [')']

theorem eq_cons_of_shifted {c : Char} {pre u v : List Char} (h : pre ++ u = c :: (pre ++ v)) :
    u = c :: v := by
  induction pre with
  | nil => exact h
  | cons d pre ih =>
    obtain ⟨rfl, hrest⟩ := List.cons.inj h
    exact ih hrest

theorem eq_concat_of_shifted {c : Char} {u v post : List Char}
    (h : u ++ post = v ++ post ++ [c]) : u = v ++ [c] := by
  have hr := congrArg List.reverse h
  simp only [List.reverse_append, List.reverse_singleton, List.singleton_append] at hr
  rw [← List.reverse_inj, List.reverse_append]
  exact eq_cons_of_shifted hr

theorem weave_ne_parenthesised {pieces : List (Option (List Char))} (hn : none ∈ pieces)
    (h : s ≠ parenthesised t) : weave pieces s ≠ parenthesised (weave pieces t) := by
  -- Every hole adds the same number of opening parentheses, so there is one hole only, and what is
  -- around it moves by one place on each side.
  intro he
  have hone : pieces.count none = 1 := by
    obtain ⟨fixed, hf⟩ := exists_count_weave '(' pieces
    have hc := congrArg (List.count '(') he
    rw [parenthesised, List.count_append, List.count_cons_self, hf, hf] at hc
    have hdvd : pieces.count none ∣ pieces.count none * t.count '(' + 1 := by
      refine ⟨s.count '(', ?_⟩
      simp at hc
      omega
    exact Nat.dvd_one.1 ((Nat.dvd_add_right (Nat.dvd_mul_right ..)).1 hdvd)
  obtain ⟨pre, rest, hcount, hw⟩ := exists_weave_eq hn
  have hzero : rest.count none = 0 := by omega
  have hrest := weave_eq_of_count_eq_zero hzero s t
  rw [parenthesised, hw, hw, hrest, List.cons_append, List.append_assoc] at he
  have hs : s ++ weave rest t = '(' :: t ++ weave rest t ++ [')'] := by
    simpa using eq_cons_of_shifted he
  exact h (eq_concat_of_shifted hs)

/-- Two texts that differ, neither of which is the other one in parentheses. -/
structure Apart (s t : List Char) : Prop where
  ne : s ≠ t
  left : s ≠ parenthesised t
  right : t ≠ parenthesised s

theorem Apart.weave {pieces : List (Option (List Char))} (h : Apart s t) (hn : none ∈ pieces) :
    Apart (weave pieces s) (weave pieces t) where
  ne := weave_ne hn h.ne
  left := weave_ne_parenthesised hn h.left
  right := weave_ne_parenthesised hn h.right

theorem Apart.strip_ne (h : Apart s t) : strip s ≠ strip t := by
  intro he
  rcases strip_eq_self_or s with hs | hs
  · rcases strip_eq_self_or t with ht | ht
    · exact h.ne (hs.symm.trans (he.trans ht))
    · rw [← he, hs] at ht
      exact h.right ht
  · rcases strip_eq_self_or t with ht | ht
    · rw [he, ht] at hs
      exact h.left hs
    · rw [he, ← ht] at hs
      exact h.ne hs

theorem apart_of_head {c : Char} (hc : c ≠ '(') (h : s ≠ t) : Apart (c :: s) (c :: t) where
  ne he := h (List.cons.inj he).2
  left he := hc (List.cons.inj he).1
  right he := hc (List.cons.inj he).1

end Brackets
end RemoteQuery
