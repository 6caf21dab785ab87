import RemoteQuery.Proofs.Text.Nesting

/-!
# Texts in one pair of parentheses

A text stands in parentheses when a scan that has opened the first one has nothing open again only after
the last character. Counting the round brackets decides this for texts whose brackets are nested. So the
pair is taken off exactly where it encloses the text, and what is left has its brackets nested as well.
-/

namespace RemoteQuery.Nesting

variable {listed : Bool} {s : Place} {c : Char} {cs : List Char} {q q' : Bool} {p p' : List Char}

theorem step?_closing (hk : kind c = .closing) :
    step? listed ⟨false, p⟩ c = some s ↔ ∃ p', p = c :: p' ∧ s = ⟨false, p'⟩ := by
  rw [step?, hk]
  cases p with
  | nil => simp
  | cons b p => simp [eq_comm]

theorem step?_bottom {b : Char} (h : step? listed ⟨q, p ++ [b]⟩ c = some s) :
    (p = [] ∧ c = b ∧ s = start) ∨
      ∃ q' p', s = ⟨q', p' ++ [b]⟩ ∧ step? true ⟨q, p⟩ c = some ⟨q', p'⟩ := by
  -- A bracket below all others is closed last. Until then it changes nothing, but that a comma may
  -- stand anywhere above it.
  cases q <;> cases hk : kind c <;> simp only [step?, hk] at h ⊢
  case false.closing =>
    split at h
    · rename_i hhead
      cases h
      cases p with
      | nil => exact Or.inl ⟨rfl, (Option.some.inj hhead).symm, rfl⟩
      | cons a p => exact Or.inr ⟨false, p, rfl, if_pos hhead⟩
    · cases h
  case false.comma =>
    split at h
    · cases h
    · cases h
      exact Or.inr ⟨false, p, rfl, if_neg (by simp)⟩
  all_goals
    cases h
    exact Or.inr ⟨_, _, rfl, rfl⟩

theorem scan?_bottom {b : Char} (h : scan? listed ⟨q, p ++ [b]⟩ cs = some s)
    (hopen : ∀ k ≤ cs.length, scan? listed ⟨q, p ++ [b]⟩ (cs.take k) ≠ some start) :
    ∃ q' p', s = ⟨q', p' ++ [b]⟩ ∧ scan? true ⟨q, p⟩ cs = some ⟨q', p'⟩ := by
  induction cs generalizing q p with
  | nil =>
    cases h
    exact ⟨q, p, rfl, rfl⟩
  | cons c cs ih =>
    rw [scan?_cons, Option.bind_eq_some_iff] at h
    obtain ⟨s₁, hc, hcs⟩ := h
    have hlater : ∀ k ≤ cs.length, scan? listed s₁ (cs.take k) ≠ some start := by
      intro k hk
      have hk' := hopen (k + 1) (by simpa using hk)
      rwa [List.take_succ_cons, scan?_cons, hc] at hk'
    rcases step?_bottom hc with ⟨-, -, rfl⟩ | ⟨q₁, p₁, rfl, hstep⟩
    · exact absurd rfl (hlater 0 (Nat.zero_le _))
    · rw [scan?_cons, hstep]
      exact ih hcs hlater

theorem staysOpen_cons_iff (h : step? listed ⟨q, p⟩ c = some ⟨q', p'⟩) (hp : ')' ∈ p) :
    Brackets.staysOpen q (p.count ')') (c :: cs) = true ↔
      (')' ∉ p' → cs = []) ∧ Brackets.staysOpen q' (p'.count ')') cs = true := by
  rw [Brackets.staysOpen]
  by_cases hquote : c = '\''
  · subst hquote
    cases h
    simp [hp]
  rw [if_neg hquote]
  cases q with
  | true =>
    rw [step?_between hquote] at h
    cases h
    simp [hp]
  | false =>
    rw [if_neg Bool.false_ne_true]
    by_cases hopen : c = '('
    · subst hopen
      cases h
      simp
    rw [if_neg hopen]
    by_cases hclosing : kind c = .closing
    · obtain ⟨p₁, rfl, hs⟩ := (step?_closing hclosing).1 h
      cases hs
      by_cases hround : c = ')'
      · subst hround
        simpa [List.count_eq_zero] using fun _ => or_iff_not_imp_left
      · have hp' : ')' ∈ p' := by simpa [Ne.symm hround] using hp
        simp [hround, hp']
    · have hround : c ≠ ')' := by
        rintro rfl
        exact hclosing rfl
      rw [if_neg hround]
      by_cases hsquare : c = '['
      · subst hsquare
        cases h
        simp [hp]
      · have hinert : isInert true c = true := by
          refine isInert_iff.2 ⟨hquote, hopen, hsquare, hround, ?_, fun h => by cases h⟩
          rintro rfl
          exact hclosing rfl
        rw [step?_of_isInert hinert fun _ _ => List.ne_nil_of_mem hp] at h
        cases h
        simp [hp]

theorem staysOpen_iff (h : scan? listed ⟨q, p ++ [')']⟩ cs = some s) :
    Brackets.staysOpen q ((p ++ [')']).count ')') cs = true ↔
      ∀ k < cs.length, scan? listed ⟨q, p ++ [')']⟩ (cs.take k) ≠ some start := by
  induction cs generalizing q p with
  | nil => simp [Brackets.staysOpen]
  | cons c cs ih =>
    rw [scan?_cons, Option.bind_eq_some_iff] at h
    obtain ⟨⟨q₁, p₁⟩, hc, hcs⟩ := h
    have htake : (∀ k < (c :: cs).length, scan? listed ⟨q, p ++ [')']⟩ ((c :: cs).take k) ≠ some start) ↔
        ∀ k < cs.length, scan? listed ⟨q₁, p₁⟩ (cs.take k) ≠ some start := by
      constructor
      · intro hall k hk
        have hk' := hall (k + 1) (by simpa using hk)
        rwa [List.take_succ_cons, scan?_cons, hc] at hk'
      · intro hall k hk
        cases k with
        | zero => simp [scan?, start]
        | succ k =>
          rw [List.take_succ_cons, scan?_cons, hc]
          exact hall k (by simpa using hk)
    rw [htake, staysOpen_cons_iff hc (by simp)]
    rcases step?_bottom hc with ⟨-, -, hs⟩ | ⟨q', p', hs, -⟩
    · -- nothing is open any more, so nothing may follow
      cases hs
      constructor
      · rintro ⟨hnil, -⟩ k hk
        rw [hnil (by simp)] at hk
        cases hk
      · intro hall
        have hnil : cs = [] := by
          by_contra hne
          exact hall 0 (List.length_pos_of_ne_nil hne) rfl
        rw [hnil]
        exact ⟨fun _ => rfl, rfl⟩
    · cases hs
      rw [← ih hcs]
      simp

/-- The text begins with a round bracket, and its last character closes it: from there on nothing is open,
and nowhere before. -/
def Encloses (cs : List Char) : Prop :=
  cs.head? = some '(' ∧ scan? true start cs = some start ∧
    ∀ k, 0 < k → k < cs.length → scan? true start (cs.take k) ≠ some start

theorem Encloses.exists_inside (h : Encloses cs) : ∃ ds, cs = '(' :: (ds ++ [')']) ∧ WellNested true ds := by
  obtain ⟨hhead, hscan, hopen⟩ := h
  obtain ⟨rest, rfl⟩ := List.head?_eq_some_iff.1 hhead
  have hrest : scan? true ⟨false, [] ++ [')']⟩ rest = some start := hscan
  rcases List.eq_nil_or_concat rest with rfl | ⟨ds, c, rfl⟩
  · cases hrest
  · rw [List.concat_eq_append] at hrest hopen ⊢
    rw [scan?_append, Option.bind_eq_some_iff] at hrest
    obtain ⟨s, hds, hlast⟩ := hrest
    have hinside : ∀ k ≤ ds.length, scan? true ⟨false, [] ++ [')']⟩ (ds.take k) ≠ some start := by
      intro k hk
      have hk' := hopen (k + 1) (Nat.succ_pos k) (by simpa using Nat.lt_succ_of_le hk)
      rwa [List.take_succ_cons, List.take_append_of_le_length hk] at hk'
    obtain ⟨q, p, rfl, hin⟩ := scan?_bottom hds hinside
    rw [scan?_cons, Option.bind_eq_some_iff] at hlast
    obtain ⟨s, hstep, hs⟩ := hlast
    obtain rfl := Option.some.inj hs
    rcases step?_bottom hstep with ⟨rfl, rfl, -⟩ | ⟨q', p', hs, -⟩
    · cases q with
      | true => cases hstep
      | false => exact ⟨ds, rfl, hin⟩
    · cases p' <;> cases hs

theorem enclosed_iff_encloses (h : WellNested listed cs) : Brackets.enclosed cs = true ↔ Encloses cs := by
  cases cs with
  | nil => simp [Brackets.enclosed, Encloses]
  | cons c rest =>
    by_cases hc : c = '('
    · subst hc
      have hrest : scan? true ⟨false, [] ++ [')']⟩ rest = some start := h.weaken
      have hiff := staysOpen_iff hrest
      constructor
      · intro he
        have hopen := (Bool.and_eq_true_iff.1 he).2
        refine ⟨rfl, h.weaken, fun k hpos hk => ?_⟩
        obtain ⟨k, rfl⟩ := Nat.exists_eq_succ_of_ne_zero (Nat.pos_iff_ne_zero.1 hpos)
        exact hiff.1 hopen k (by simpa using hk)
      · intro he
        obtain ⟨ds, hds, -⟩ := he.exists_inside
        refine Bool.and_eq_true_iff.2 ⟨?_, ?_⟩
        · rw [(List.cons.inj hds).2]
          simp
        · refine hiff.2 fun k hk => ?_
          exact he.2.2 (k + 1) (Nat.succ_pos k) (by simpa using hk)
    · have hnot : Brackets.enclosed (c :: rest) ≠ true := fun he =>
        hc (Option.some.inj (Brackets.ends_of_enclosed he).1)
      exact ⟨fun he => absurd he hnot, fun he => absurd (Option.some.inj he.1) hc⟩

theorem strip_cases (h : WellNested listed cs) :
    (Encloses cs ∧ cs = '(' :: (Brackets.strip cs ++ [')']) ∧ WellNested true (Brackets.strip cs)) ∨
      (¬ Encloses cs ∧ Brackets.strip cs = cs) := by
  by_cases he : Encloses cs
  · obtain ⟨ds, rfl, hds⟩ := he.exists_inside
    have hstrip : Brackets.strip ('(' :: (ds ++ [')'])) = ds := by
      rw [Brackets.strip, if_pos ((enclosed_iff_encloses h).2 he)]
      simp
    rw [hstrip]
    exact Or.inl ⟨he, rfl, hds⟩
  · refine Or.inr ⟨he, ?_⟩
    rw [Brackets.strip, if_neg fun hb => he ((enclosed_iff_encloses h).1 hb)]

theorem WellNested.strip (h : WellNested listed cs) : WellNested true (Brackets.strip cs) := by
  rcases strip_cases h with ⟨-, -, hin⟩ | ⟨-, heq⟩
  · exact hin
  · rw [heq]
    exact h.weaken

end RemoteQuery.Nesting
