import RemoteQuery.Text.Brackets
import RemoteQuery.Text.Quoted

/-!
# Texts that the scan passes over

A text is neutral when the scan for the enclosing pair comes out of it as it went in, whatever stands
behind it. Quoted texts are neutral, and so are neutral texts in parentheses and one after another. A
neutral text in parentheses loses exactly these, and a text that does not begin and end with
parentheses stays as it is.
-/

namespace RemoteQuery.Brackets

variable {cs ds : List Char}

def Neutral (cs : List Char) : Prop :=
  ∀ depth rest, staysOpen false (depth + 1) (cs ++ rest) = staysOpen false (depth + 1) rest

theorem neutral_nil : Neutral [] := fun _ _ => rfl

theorem Neutral.append (hc : Neutral cs) (hd : Neutral ds) : Neutral (cs ++ ds) := by
  intro depth rest
  rw [List.append_assoc, hc, hd]

def IsMark (c : Char) : Prop := c = '\'' ∨ c = '(' ∨ c = ')'

instance (c : Char) : Decidable (IsMark c) :=
  inferInstanceAs (Decidable (c = '\'' ∨ c = '(' ∨ c = ')'))

theorem neutral_cons {c : Char} (hc : ¬ IsMark c) (hcs : Neutral cs) : Neutral (c :: cs) := by
  intro depth rest
  simp only [IsMark, not_or] at hc
  rw [List.cons_append, staysOpen, if_neg hc.1, if_neg (by simp), if_neg hc.2.1, if_neg hc.2.2, hcs]

theorem neutral_of_forall_not_isMark (h : ∀ c ∈ cs, ¬ IsMark c) : Neutral cs := by
  induction cs with
  | nil => exact neutral_nil
  | cons c cs ih =>
    exact neutral_cons (h c List.mem_cons_self) (ih fun b hb => h b (List.mem_cons_of_mem c hb))

theorem neutral_of_all (h : (cs.all fun c => !decide (IsMark c)) = true) : Neutral cs := by
  apply neutral_of_forall_not_isMark
  simpa using h

theorem Neutral.parenthesised (h : Neutral cs) : Neutral ('(' :: cs ++ [')']) := by
  intro depth rest
  have hin := h (depth + 1) (')' :: rest)
  simp only [List.cons_append, List.append_assoc, List.nil_append, staysOpen]
  simpa [staysOpen] using hin

theorem staysOpen_quoted (depth : Nat) (cs rest : List Char) :
    staysOpen true depth (Quoted.body cs ++ '\'' :: rest) = staysOpen false depth rest := by
  induction cs with
  | nil => simp [staysOpen]
  | cons c cs ih =>
    by_cases hc : c = '\''
    · subst hc
      simpa [staysOpen] using ih
    · rw [Quoted.body_cons_of_ne hc, List.cons_append, staysOpen, if_neg hc, if_pos rfl, ih]

theorem neutral_quoted (cs : List Char) : Neutral (Quoted.chars cs) := by
  intro depth rest
  have h := staysOpen_quoted (depth + 1) cs rest
  simpa [Quoted.chars, staysOpen] using h

theorem strip_parenthesised (h : Neutral cs) : strip ('(' :: cs ++ [')']) = cs := by
  have hopen : staysOpen false 0 ('(' :: (cs ++ [')'])) = true := by
    have hin := h 0 [')']
    simpa [staysOpen] using hin
  have henclosed : enclosed ('(' :: cs ++ [')']) = true := by
    simp [enclosed, hopen]
  rw [strip, if_pos henclosed]
  simp

theorem ends_of_enclosed (h : enclosed cs = true) :
    cs.head? = some '(' ∧ cs.getLast? = some ')' := by
  unfold enclosed at h
  split at h
  · rename_i rest
    rw [Bool.and_eq_true, beq_iff_eq] at h
    refine ⟨rfl, ?_⟩
    rw [List.getLast?_cons, h.1]
    rfl
  · cases h

theorem exists_inner_of_enclosed (h : enclosed cs = true) : ∃ inner, cs = '(' :: (inner ++ [')']) := by
  obtain ⟨hfirst, hlast⟩ := ends_of_enclosed h
  obtain ⟨rest, rfl⟩ := List.head?_eq_some_iff.1 hfirst
  cases rest with
  | nil => simp at hlast
  | cons b rest =>
    rw [List.getLast?_cons_cons] at hlast
    obtain ⟨inner, hinner⟩ := List.getLast?_eq_some_iff.1 hlast
    exact ⟨inner, by rw [hinner]⟩

theorem strip_eq_self_or (cs : List Char) : strip cs = cs ∨ cs = '(' :: strip cs ++ [')'] := by
  rw [strip]
  split
  · rename_i he
    obtain ⟨inner, rfl⟩ := exists_inner_of_enclosed he
    right
    rw [List.tail_cons, List.dropLast_concat, List.cons_append]
  · exact Or.inl rfl

theorem strip_eq_self (h : cs.head? ≠ some '(' ∨ cs.getLast? ≠ some ')') : strip cs = cs := by
  rw [strip, if_neg]
  intro he
  obtain ⟨hfirst, hlast⟩ := ends_of_enclosed he
  rcases h with h | h
  · exact h hfirst
  · exact h hlast

end RemoteQuery.Brackets
