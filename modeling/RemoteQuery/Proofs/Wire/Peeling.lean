import RemoteQuery.Proofs.Wire.Preference

/-!
# Peeled operands

Peeling takes conversions off a term from the outside, as long as one of its rules applies. What is left is
a part of the term and keeps its type but for a level of nullability. The operands of a binary operation
are peeled, and a constant among them may be exchanged, before they are written. So writing does not go
down to the parts of a term only, but whatever is written first has fewer nodes.
-/

namespace RemoteQuery

namespace Term

variable {t u v c : Term}

def HasNode (t u : Term) : Prop := ∃ p, t.at? p = some u

theorem HasNode.refl (t : Term) : t.HasNode t := ⟨[], rfl⟩

theorem HasNode.of_child (hc : c ∈ t.children) (h : c.HasNode u) : t.HasNode u := by
  obtain ⟨p, hp⟩ := h
  obtain ⟨i, hi⟩ := List.getElem?_of_mem hc
  exact ⟨i :: p, at?_cons_eq_some.2 ⟨c, hi, hp⟩⟩

theorem HasNode.every {P : Term → Prop} (h : t.HasNode u) (ht : t.Every P) : u.Every P := by
  obtain ⟨p, hp⟩ := h
  exact ht.below p u hp

def OnceNullable (t : Term) : Prop := t.Every fun u => ∀ inner, u.ty ≠ .nullable (.nullable inner)

theorem OnceNullable.nonNullable_eq (ht : t.OnceNullable) {inner : Ty} (h : t.ty = .nullable inner) :
    inner.nonNullable = inner := by
  cases inner with
  | nullable deeper => exact absurd h ((every_iff.1 ht).1 deeper)
  | _ => rfl

end Term

namespace Operand

open Term

variable {t u : Term}

theorem hasNode_of_peel? (h : peel? t = some u) {v : Term} (hv : u.HasNode v) : t.HasNode v := by
  rcases mem_children_of_peel? h with hu | ⟨c, hc, hu⟩
  · exact .of_child hu hv
  · exact .of_child hc (.of_child hu hv)

theorem hasNode_strip (t : Term) : t.HasNode (strip t) := by
  cases h : peel? t with
  | none =>
    rw [strip_of_peel?_eq_none h]
    exact .refl t
  | some u =>
    have := nodes_lt_of_peel? h
    rw [strip_of_peel? h]
    exact hasNode_of_peel? h (hasNode_strip u)
termination_by t.nodes

theorem peel?_strip (t : Term) : peel? (strip t) = none := by
  cases h : peel? t with
  | none => rwa [strip_of_peel?_eq_none h]
  | some u =>
    have := nodes_lt_of_peel? h
    rw [strip_of_peel? h]
    exact peel?_strip u
termination_by t.nodes

theorem ty_of_peel? (h : peel? t = some u) :
    u.ty.nonNullable = t.ty.nonNullable ∨ t.ty = .nullable u.ty := by
  obtain ⟨operand, ty, rfl, hcases⟩ := peel?_cases h
  rcases hcases with ⟨op, -, -, hty⟩ | ⟨-, hty⟩ | ⟨via, -, -, hty⟩
  · exact Or.inl hty
  · exact Or.inr hty
  · exact Or.inl (congrArg Ty.nonNullable hty)

theorem nonNullable_ty_strip {t : Term} (ht : t.OnceNullable) : (strip t).ty.nonNullable = t.ty.nonNullable := by
  cases h : peel? t with
  | none => rw [strip_of_peel?_eq_none h]
  | some u =>
    have := nodes_lt_of_peel? h
    have hu : u.OnceNullable := (hasNode_of_peel? h (.refl u)).every ht
    rw [strip_of_peel? h, nonNullable_ty_strip hu]
    rcases ty_of_peel? h with hty | hty
    · exact hty
    · rw [hty, Ty.nonNullable, ht.nonNullable_eq hty]
termination_by t.nodes

end Operand

namespace Dialect

variable {d : Dialect}

/-- To write the second term under its root, the first one is written under its own before. -/
def WritesFirst (d : Dialect) (u t : Option String × Term) : Prop :=
  ∃ rule, d.rule t.1 t.2 = .ok rule ∧ u ∈ rule.parts

theorem nodes_lt_of_writesFirst {u t : Option String × Term} (h : d.WritesFirst u t) :
    u.2.nodes < t.2.nodes := by
  obtain ⟨rule, hrule, hu⟩ := h
  exact nodes_lt_of_reads (reads_of_rule hrule).2 (List.mem_map_of_mem hu)

theorem wellFounded_writesFirst (d : Dialect) : WellFounded d.WritesFirst :=
  Subrelation.wf nodes_lt_of_writesFirst
    (InvImage.wf (fun t : Option String × Term => t.2.nodes) Nat.lt_wfRel.wf)

open Operand

/-- What is left of a peeled term is one of its nodes, cannot be peeled any more and has the term's type up
to one level of nullability. Neither operand of an operation gets more nodes. Writing is the repeated use
of the rules of nodes, and no sequence of terms each of which is written before the one ahead of it goes on
forever. -/
theorem operands_keep_types_and_shrink (d : Dialect) :
    (∀ t, t.HasNode (strip t) ∧ strip (strip t) = strip t ∧
      (t.OnceNullable → (strip t).ty.nonNullable = t.ty.nonNullable)) ∧
    (∀ op left right, (normalise op left right).1.nodes ≤ left.nodes ∧
      (normalise op left right).2.nodes ≤ right.nodes) ∧
    (∀ root t, d.render root t = do (← d.rule root t).run d.render) ∧ WellFounded d.WritesFirst := by
  refine ⟨fun t => ⟨hasNode_strip t, ?_, nonNullable_ty_strip⟩, nodes_normalise, d.render_eq_rule,
    wellFounded_writesFirst d⟩
  exact strip_of_peel?_eq_none (peel?_strip t)

def boxedAge : Term :=
  ((liftedAge.castAs .object).converted (.scalar .int32)).converted (.nullable (.scalar .int32))
where
  age : Term := (Term.parameter "x" .object).property "Age" (.scalar .int32)
  liftedAge : Term := age.converted (.nullable (.scalar .int32))

theorem operands_keep_types_and_shrink_boxedAge :
    boxedAge.OnceNullable ∧ strip boxedAge = boxedAge.age ∧ boxedAge.HasNode (strip boxedAge) ∧
      strip (strip boxedAge) = strip boxedAge ∧ (strip boxedAge).ty.nonNullable = boxedAge.ty.nonNullable := by
  have hnode : ∀ u c : Term, (∀ inner, u.ty ≠ .nullable (.nullable inner)) → u.children = [c] →
      c.OnceNullable → u.OnceNullable := by
    intro u c hu hchildren hc
    exact Term.every_iff.2 ⟨hu, by rw [hchildren]; exact List.forall_mem_singleton.2 hc⟩
  have hroot : (Term.parameter "x" .object).OnceNullable := Term.every_iff.2 ⟨nofun, nofun⟩
  have hlifted : boxedAge.liftedAge.OnceNullable :=
    hnode _ _ nofun rfl (hnode boxedAge.age _ nofun rfl hroot)
  have honce : boxedAge.OnceNullable :=
    hnode _ _ nofun rfl (hnode _ _ nofun rfl (hnode _ _ nofun rfl hlifted))
  have hstrip : strip boxedAge = boxedAge.age := by cbv
  obtain ⟨hpeeled, -⟩ := operands_keep_types_and_shrink camelCased
  obtain ⟨hnodes, hfixed, htype⟩ := hpeeled boxedAge
  exact ⟨honce, hstrip, hnodes, hfixed, htype honce⟩

end Dialect
end RemoteQuery
