import RemoteQuery.Proofs.Term.Context
import RemoteQuery.Proofs.Wire.Operand

/-!
# Operands with a hole

Which conversions are taken off an operand depends on the types of what is below them and not on what
it is, and no parameter and no member of one is a constant. So an operand whose hole holds either is
normalised alike: the hole is in what is left, in one inner context for all of one type.
-/

namespace RemoteQuery

inductive Term.IsName : Term → Prop
  | param (q : Param) : IsName (.param q)
  | member (q : Param) (m : Member) : IsName (.member (some (.param q)) m)

namespace Context

inductive Peels : Context → Context → Prop
  | refl (c : Context) : Peels c c
  | unary {c c' : Context} (op : UnaryOp) (ty : Ty) (h : Peels c c') : Peels (.unary op c ty) c'

variable {c c' c'' : Context}

theorem Peels.trans (h : Peels c c') (h' : Peels c' c'') : Peels c c'' := by
  induction h with
  | refl _ => exact h'
  | unary op ty _ ih => exact .unary op ty (ih h')

theorem Peels.depth_le (h : Peels c c') : c'.depth ≤ c.depth := by
  induction h with
  | refl _ => exact Nat.le_refl _
  | unary op ty _ ih => exact Nat.le_succ_of_le ih

variable {a b : Term}

theorem fill_ne_constant (ha : a.IsName) (c : Context) (value : Literal) (ty : Ty) :
    c.fill a ≠ .constant value ty := by
  cases c with
  | hole => cases ha <;> exact Term.noConfusion
  | _ => exact Term.noConfusion

end Context

namespace Operand

open Context

def FindsInner (a b : Term) (c : Context) (f : Term → Option Term) : Prop :=
  (f (c.fill a) = none ∧ f (c.fill b) = none) ∨
    ∃ c', Peels c c' ∧ f (c.fill a) = some (c'.fill a) ∧ f (c.fill b) = some (c'.fill b)

variable {a b : Term}

theorem FindsInner.or {c : Context} {f g : Term → Option Term} (hf : FindsInner a b c f)
    (hg : FindsInner a b c g) : FindsInner a b c fun t => (f t).or (g t) := by
  rcases hf with ⟨h, h'⟩ | ⟨c', hc, h, h'⟩
  · simp only [FindsInner, h, h', Option.none_or]
    exact hg
  · exact Or.inr ⟨c', hc, by simp only [h, Option.some_or], by simp only [h', Option.some_or]⟩

variable (hty : a.ty = b.ty) (ha : a.IsName) (hb : b.IsName)

include hty ha hb

theorem findsInner_unboxed? (c : Context) (ty : Ty) :
    FindsInner a b c fun t => unboxed? t ty := by
  cases c with
  | hole =>
    left
    cases ha <;> cases hb <;> exact ⟨rfl, rfl⟩
  | unary op c via =>
    have ht := ty_fill hty c
    simp only [FindsInner, fill, unboxed?, ht]
    split
    · exact Or.inr ⟨c, .unary op via (.refl c), rfl, rfl⟩
    · exact Or.inl ⟨rfl, rfl⟩
  | _ => exact Or.inl ⟨rfl, rfl⟩

theorem findsInner_untoggled? (c : Context) (ty : Ty) :
    FindsInner a b c fun t => untoggled? t ty := by
  cases c with
  | hole =>
    left
    cases ha <;> cases hb <;> exact ⟨rfl, rfl⟩
  | unary op c via =>
    have ht := ty_fill hty c
    cases op with
    | convert =>
      simp only [FindsInner, fill, untoggled?, ht]
      split
      · exact Or.inr ⟨c, .unary .convert via (.refl c), rfl, rfl⟩
      · exact Or.inl ⟨rfl, rfl⟩
    | _ => exact Or.inl ⟨rfl, rfl⟩
  | _ => exact Or.inl ⟨rfl, rfl⟩

omit ha hb in
theorem findsInner_unlifted? (c : Context) (ty : Ty) :
    FindsInner a b c fun t => unlifted? t ty := by
  simp only [FindsInner, unlifted?, ty_fill hty c]
  split
  · exact Or.inr ⟨c, .refl c, rfl, rfl⟩
  · exact Or.inl ⟨rfl, rfl⟩

theorem peel?_fill (c : Context) :
    (peel? (c.fill a) = none ∧ peel? (c.fill b) = none) ∨
      ∃ c', Peels c c' ∧ c'.depth < c.depth ∧ peel? (c.fill a) = some (c'.fill a) ∧
        peel? (c.fill b) = some (c'.fill b) := by
  cases c with
  | hole =>
    left
    cases ha <;> cases hb <;> exact ⟨rfl, rfl⟩
  | unary op c ty =>
    cases op with
    | convert =>
      have h : FindsInner a b c fun t => peel? (.unary .convert t ty) :=
        (findsInner_unboxed? hty ha hb c ty).or
          ((findsInner_unlifted? hty c ty).or (findsInner_untoggled? hty ha hb c ty))
      rcases h with h | ⟨c', hc, h⟩
      · exact Or.inl h
      · exact Or.inr ⟨c', .unary .convert ty hc, Nat.lt_succ_of_le hc.depth_le, h⟩
    | _ => exact Or.inl ⟨rfl, rfl⟩
  | _ => exact Or.inl ⟨rfl, rfl⟩

theorem strip_fill (c : Context) :
    ∃ c', Peels c c' ∧ strip (c.fill a) = c'.fill a ∧ strip (c.fill b) = c'.fill b := by
  rcases peel?_fill hty ha hb c with ⟨h, h'⟩ | ⟨c', hc, hlt, h, h'⟩
  · exact ⟨c, .refl c, strip_of_peel?_eq_none h, strip_of_peel?_eq_none h'⟩
  · obtain ⟨c'', hc', hs, hs'⟩ := strip_fill c'
    exact ⟨c'', hc.trans hc', (strip_of_peel? h).trans hs, (strip_of_peel? h').trans hs'⟩
termination_by c.depth

omit hty hb in
theorem compareSymbols?_fill_eq_none (c : Context) (t : Term) :
    compareSymbols? t (c.fill a) = none := by
  have hsymbol : ∀ ty target, symbol? ty target (c.fill a) = none := by
    intro ty target
    unfold symbol?
    split
    · exact absurd ‹_› (fill_ne_constant ha c _ _)
    · exact absurd ‹_› (fill_ne_constant ha c _ _)
    · exact absurd ‹_› (fill_ne_constant ha c _ _)
    · rfl
  unfold compareSymbols?
  split
  · rw [hsymbol]
    rfl
  · rfl

theorem compareSymbols?_fill (c : Context) (t : Term) :
    (compareSymbols? (c.fill a) t = none ∧ compareSymbols? (c.fill b) t = none) ∨
      ∃ c' t', Peels c c' ∧ compareSymbols? (c.fill a) t = some (c'.fill a, t') ∧
        compareSymbols? (c.fill b) t = some (c'.fill b, t') := by
  cases c with
  | hole =>
    left
    cases ha <;> cases hb <;> exact ⟨rfl, rfl⟩
  | unary op c target =>
    cases op with
    | convert =>
      have ht := ty_fill hty c
      simp only [fill, compareSymbols?, ht]
      cases symbol? (c.fill b).ty target t with
      | none => exact Or.inl ⟨rfl, rfl⟩
      | some t' => exact Or.inr ⟨c, t', .unary .convert target (.refl c), rfl, rfl⟩
    | _ => exact Or.inl ⟨rfl, rfl⟩
  | _ => exact Or.inl ⟨rfl, rfl⟩

theorem normalise_fill_left (op : BinaryOp) (c : Context) (t : Term) :
    ∃ c' t', Peels c c' ∧ normalise op (c.fill a) t = (c'.fill a, t') ∧
      normalise op (c.fill b) t = (c'.fill b, t') := by
  obtain ⟨c', hc, hs, hs'⟩ := strip_fill hty ha hb c
  have hna := compareSymbols?_fill_eq_none ha c' (strip t)
  have hnb := compareSymbols?_fill_eq_none hb c' (strip t)
  rw [normalise, normalise, hs, hs']
  by_cases hop : op.isComparison = true
  · rw [if_pos hop, if_pos hop, hna, hnb]
    rcases compareSymbols?_fill hty ha hb c' (strip t) with ⟨h, h'⟩ | ⟨c'', t', hc', h, h'⟩
    · rw [h, h']
      exact ⟨c', strip t, hc, rfl, rfl⟩
    · rw [h, h']
      exact ⟨c'', t', hc.trans hc', rfl, rfl⟩
  · rw [if_neg hop, if_neg hop]
    exact ⟨c', strip t, hc, rfl, rfl⟩

theorem normalise_fill_right (op : BinaryOp) (t : Term) (c : Context) :
    ∃ t' c', Peels c c' ∧ normalise op t (c.fill a) = (t', c'.fill a) ∧
      normalise op t (c.fill b) = (t', c'.fill b) := by
  obtain ⟨c', t', hc, h, h'⟩ := normalise_fill_left hty ha hb op c t
  refine ⟨t', c', hc, ?_, ?_⟩
  · rw [normalise_swap, h]
    rfl
  · rw [normalise_swap, h']
    rfl

end Operand
end RemoteQuery
