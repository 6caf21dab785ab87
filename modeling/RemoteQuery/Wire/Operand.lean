import RemoteQuery.Term.Build

/-!
# Operands of binary operators

Conversions that do not change the value on the wire are taken off both operands. A comparison that
reads an enumeration as an integer is turned back into one of the enumeration with a symbol. No
operand gets more nodes than it had, so a walk may go on with the new operands.
-/

namespace RemoteQuery.Operand

def unboxed? (operand : Term) (ty : Ty) : Option Term :=
  match operand with
  | .unary op inner via =>
    if (op = .typeAs ∨ op = .convert) ∧ via = .object ∧ inner.ty.nonNullable = ty.nonNullable then
      some inner
    else none
  | _ => none

def unlifted? (operand : Term) (ty : Ty) : Option Term :=
  if ty = .nullable operand.ty then some operand else none

/-- A value whose nullability changed and changed back. -/
def untoggled? (operand : Term) (ty : Ty) : Option Term :=
  match operand with
  | .unary .convert inner via =>
    if via.nonNullable = ty.nonNullable ∧ inner.ty = ty then some inner else none
  | _ => none

def peel? : Term → Option Term
  | .unary .convert operand ty =>
    (unboxed? operand ty).or ((unlifted? operand ty).or (untoggled? operand ty))
  | _ => none

theorem peel?_cases {t u : Term} (h : peel? t = some u) :
    ∃ operand ty, t = .unary .convert operand ty ∧
      ((∃ op, (op = .typeAs ∨ op = .convert) ∧ operand = .unary op u .object ∧
          u.ty.nonNullable = ty.nonNullable) ∨
        (operand = u ∧ ty = .nullable u.ty) ∨
        ∃ via, operand = .unary .convert u via ∧ via.nonNullable = ty.nonNullable ∧ u.ty = ty) := by
  unfold peel? at h
  split at h
  · rename_i operand ty
    refine ⟨operand, ty, rfl, ?_⟩
    simp only [Option.or_eq_some_iff] at h
    rcases h with h | ⟨-, h | ⟨-, h⟩⟩
    · unfold unboxed? at h
      split at h
      · rename_i op inner via
        split at h
        · rename_i hboxed
          obtain ⟨hop, rfl, hty⟩ := hboxed
          cases h
          exact Or.inl ⟨op, hop, rfl, hty⟩
        · cases h
      · cases h
    · unfold unlifted? at h
      split at h
      · rename_i hty
        cases h
        exact Or.inr (Or.inl ⟨rfl, hty⟩)
      · cases h
    · unfold untoggled? at h
      split at h
      · rename_i inner via
        split at h
        · rename_i htoggled
          cases h
          exact Or.inr (Or.inr ⟨via, rfl, htoggled⟩)
        · cases h
      · cases h
  · cases h

theorem mem_children_of_peel? {t u : Term} (h : peel? t = some u) :
    u ∈ t.children ∨ ∃ c ∈ t.children, u ∈ c.children := by
  obtain ⟨operand, ty, rfl, hcases⟩ := peel?_cases h
  rcases hcases with ⟨op, -, rfl, -⟩ | ⟨rfl, -⟩ | ⟨via, rfl, -⟩
  · exact Or.inr ⟨_, List.mem_singleton_self _, List.mem_singleton_self _⟩
  · exact Or.inl (List.mem_singleton_self _)
  · exact Or.inr ⟨_, List.mem_singleton_self _, List.mem_singleton_self _⟩

theorem nodes_lt_of_peel? {t u : Term} (h : peel? t = some u) : u.nodes < t.nodes := by
  rcases mem_children_of_peel? h with h | ⟨c, hc, hu⟩
  · exact Term.nodes_lt_of_mem_children h
  · exact Nat.lt_trans (Term.nodes_lt_of_mem_children hu) (Term.nodes_lt_of_mem_children hc)

def strip (t : Term) : Term :=
  match h : peel? t with
  | some u =>
    have := nodes_lt_of_peel? h
    strip u
  | none => t
termination_by t.nodes

theorem strip_of_peel? {t u : Term} (h : peel? t = some u) : strip t = strip u := by
  rw [strip]; split <;> simp_all

theorem strip_of_peel?_eq_none {t : Term} (h : peel? t = none) : strip t = t := by
  rw [strip]; split <;> simp_all

theorem nodes_strip_le (t : Term) : (strip t).nodes ≤ t.nodes := by
  cases h : peel? t with
  | none => exact Nat.le_of_eq (by rw [strip_of_peel?_eq_none h])
  | some u =>
    have := nodes_lt_of_peel? h
    rw [strip_of_peel? h]
    exact Nat.le_trans (nodes_strip_le u) (Nat.le_of_lt this)
termination_by t.nodes

/-- The constant as a value of the enumeration type `ty`, if it is an integer of the type that the
enumeration was converted to, or null where both types are nullable. -/
def symbol? (ty target : Ty) (constant : Term) : Option Term :=
  match ty, target, constant with
  | .enum e, .scalar s, .constant (.int raw) given =>
    if s.isIntegral ∧ given = target then some (.constant (.enum e raw) ty) else none
  | .nullable (.enum e), .nullable (.scalar s), .constant (.int raw) given =>
    if s.isIntegral ∧ given.nonNullable = .scalar s then some (.constant (.enum e raw) ty) else none
  | .nullable (.enum _), .nullable (.scalar s), .constant .null _ =>
    if s.isIntegral then some (.nullOf ty) else none
  | _, _, _ => none

/-- An enumeration converted to an integer and a constant: the enumeration itself and the constant
as one of its values. -/
def compareSymbols? (converted constant : Term) : Option (Term × Term) :=
  match converted with
  | .unary .convert operand target => (symbol? operand.ty target constant).map (operand, ·)
  | _ => none

def normalise (op : BinaryOp) (left right : Term) : Term × Term :=
  let left := strip left
  let right := strip right
  if op.isComparison then
    ((compareSymbols? left right).or ((compareSymbols? right left).map Prod.swap)).getD
      (left, right)
  else (left, right)

theorem exists_constant_of_symbol? {ty target : Ty} {constant t : Term}
    (h : symbol? ty target constant = some t) :
    (∃ value given, constant = .constant value given) ∧ ∃ value given, t = .constant value given := by
  unfold symbol? at h
  split at h <;> simp at h <;> exact ⟨⟨_, _, rfl⟩, _, _, h.2.symm⟩

theorem nodes_symbol? {ty target : Ty} {constant t : Term}
    (h : symbol? ty target constant = some t) : t.nodes = 1 := by
  obtain ⟨-, value, given, rfl⟩ := exists_constant_of_symbol? h
  simp [Term.nodes_eq, Term.total, Term.children]

theorem nodes_pos (t : Term) : 0 < t.nodes := by rw [Term.nodes_eq]; omega

theorem nodes_compareSymbols? {converted constant l r : Term}
    (h : compareSymbols? converted constant = some (l, r)) :
    l.nodes ≤ converted.nodes ∧ r.nodes ≤ constant.nodes := by
  unfold compareSymbols? at h
  split at h
  · rename_i operand target
    simp only [Option.map_eq_some_iff, Prod.mk.injEq] at h
    obtain ⟨t, ht, rfl, rfl⟩ := h
    have := nodes_symbol? ht
    have := nodes_pos constant
    refine ⟨Nat.le_of_lt (Term.nodes_lt_of_mem_children ?_), by omega⟩
    simp [Term.children]
  · simp at h

theorem nodes_normalise (op : BinaryOp) (left right : Term) :
    (normalise op left right).1.nodes ≤ left.nodes ∧
      (normalise op left right).2.nodes ≤ right.nodes := by
  have hl := nodes_strip_le left
  have hr := nodes_strip_le right
  simp only [normalise]
  split
  · cases h : compareSymbols? (strip left) (strip right) with
    | some p =>
      have := nodes_compareSymbols? h
      simp
      omega
    | none =>
      cases h : compareSymbols? (strip right) (strip left) with
      | some p =>
        have := nodes_compareSymbols? h
        simp
        omega
      | none => exact ⟨hl, hr⟩
  · exact ⟨hl, hr⟩

theorem nodes_fst_normalise_lt (op : BinaryOp) (left right : Term) (ty : Ty) :
    (normalise op left right).1.nodes < (Term.binary op left right ty).nodes :=
  Nat.lt_of_le_of_lt (nodes_normalise op left right).1
    (Term.nodes_lt_of_mem_children (by simp [Term.children]))

theorem nodes_snd_normalise_lt (op : BinaryOp) (left right : Term) (ty : Ty) :
    (normalise op left right).2.nodes < (Term.binary op left right ty).nodes :=
  Nat.lt_of_le_of_lt (nodes_normalise op left right).2
    (Term.nodes_lt_of_mem_children (by simp [Term.children]))

end RemoteQuery.Operand
