import RemoteQuery.Proofs.Split.Restoration

/-!
# When a split is refused

The server can evaluate a term that has a text and a construction of terms that it can evaluate. When
the client must not evaluate, a split is refused for every part of the body's constructions that the
server cannot evaluate, but for one kind: a lambda that mentions the root gets the whole entity and is
not looked at. So a split is accepted exactly when each part has a text or is such a lambda.
-/

namespace RemoteQuery

namespace Term

/-- What a construction is made of, also through its arguments that are constructions. -/
def components (t : Term) : List Term :=
  if t.isConstruction then t.children.attach.flatMap fun c => components c.1 else [t]
termination_by sizeOf t
decreasing_by exact sizeOf_lt_of_mem_children c.2

theorem forall_components_of_isConstruction {t : Term} (h : t.isConstruction = true)
    {P : Term → Prop} : (∀ u ∈ t.components, P u) ↔ ∀ c ∈ t.children, ∀ u ∈ c.components, P u := by
  rw [components, if_pos h]
  simp only [List.flatMap_subtype, List.unattach_attach, List.mem_flatMap]
  exact ⟨fun hall c hc u hu => hall u ⟨c, hc, hu⟩, fun hall u ⟨c, hc, hu⟩ => hall c hc u hu⟩

theorem forall_components_of_not_isConstruction {t : Term} (h : ¬ t.isConstruction = true)
    {P : Term → Prop} : (∀ u ∈ t.components, P u) ↔ P t := by
  rw [components, if_neg h, List.forall_mem_singleton]

theorem lambda?_of_isConstruction {t : Term} (h : t.isConstruction = true) : t.lambda? = none := by
  cases t <;> first | rfl | cases h

theorem mentions_eq_false_of_mem_components {name : String} {t : Term}
    (h : t.mentions name = false) : ∀ u ∈ t.components, u.mentions name = false := by
  induction t using inductionOn with
  | step t ih =>
    by_cases hc : t.isConstruction = true
    · refine (forall_components_of_isConstruction hc).2 fun c hct => ih c hct ?_
      refine Bool.eq_false_iff.2 fun hm => Bool.eq_false_iff.1 h ((mentions_iff name t).2 ?_)
      exact Or.inr ⟨hides_eq_false_of_lambda?_eq_none (lambda?_of_isConstruction hc) name, c, hct, hm⟩
    · exact (forall_components_of_not_isConstruction hc).2 h

end Term

namespace Dialect

/-- The server can evaluate the term, given which name stands for the root. -/
inductive Evaluable (d : Dialect) (root : Option String) : Term → Prop
  | text {t : Term} {r : Rendered} (h : d.render root t = .ok r) : Evaluable d root t
  | construction {t : Term} (hc : t.isConstruction = true)
    (h : ∀ c ∈ t.children, Evaluable d root c) : Evaluable d root t

theorem render_of_isConstruction (d : Dialect) (root : Option String) {t : Term}
    (h : t.isConstruction = true) : ∃ why, d.render root t = .error why := by
  cases t with
  | construct names args ty => exact ⟨_, by rw [render]⟩
  | listInit rows ty => exact ⟨_, by rw [render]⟩
  | _ => cases h

theorem not_isConstruction_of_render {d : Dialect} {root : Option String} {t : Term} {r : Rendered}
    (h : d.render root t = .ok r) : ¬ t.isConstruction = true := by
  intro hc
  obtain ⟨why, he⟩ := d.render_of_isConstruction root hc
  rw [h] at he
  cases he

theorem evaluable_iff (d : Dialect) (root : Option String) (t : Term) :
    d.Evaluable root t ↔ ∀ u ∈ t.components, ∃ r, d.render root u = .ok r := by
  constructor
  · intro h
    induction h with
    | text hr =>
      exact (Term.forall_components_of_not_isConstruction (not_isConstruction_of_render hr)).2 ⟨_, hr⟩
    | construction hc _ ih => exact (Term.forall_components_of_isConstruction hc).2 ih
  · intro h
    induction t using Term.inductionOn with
    | step t ih =>
      by_cases hc : t.isConstruction = true
      · rw [Term.forall_components_of_isConstruction hc] at h
        exact .construction hc fun c hct => ih c hct (h c hct)
      · obtain ⟨r, hr⟩ := (Term.forall_components_of_not_isConstruction hc).1 h
        exact .text hr

end Dialect

namespace Splitter

variable {s : Splitter} {t : Term}

theorem obstacles_eq_nil_iff (s : Splitter) (t : Term) :
    s.obstacles t = [] ↔ s.dialect.Evaluable (some s.root.name) t := by
  rw [Dialect.evaluable_iff]
  induction t using Term.inductionOn with
  | step t ih =>
    rw [obstacles_eq, render]
    cases hr : s.dialect.render (some s.root.name) t with
    | ok r =>
      rw [Term.forall_components_of_not_isConstruction (Dialect.not_isConstruction_of_render hr)]
      simp [hr]
    | error why =>
      by_cases hc : t.isConstruction = true
      · simp only [hc, if_true, List.flatMap_eq_nil_iff,
          Term.forall_components_of_isConstruction hc]
        exact forall_congr' fun c => forall_congr' (ih c)
      · rw [Term.forall_components_of_not_isConstruction hc]
        simp [hc, hr]

def Captures (s : Splitter) (u : Term) : Prop :=
  u.lambda?.isSome = true ∧ u.mentions s.root.name = true

theorem reasons_eq_nil_iff (hf : s.clientUse = .forbidden) (t : Term) :
    s.reasons t = [] ↔ ∀ u ∈ t.components, (∃ r, s.render u = .ok r) ∨ s.Captures u := by
  induction t using Term.inductionOn with
  | step t ih =>
    rw [reasons_eq]
    have hp := s.placed t
    generalize s.place t = pl at hp
    cases hp with
    | free hm =>
      simp only [hf, if_true, obstacles_eq_nil_iff, Dialect.evaluable_iff]
      refine forall_congr' fun u => forall_congr' fun hu => (or_iff_left fun hcap => ?_).symm
      have hm' := Term.mentions_eq_false_of_mem_components hm u hu
      simp [Captures, hm'] at hcap
    | captured hm hl =>
      have hc : ¬ t.isConstruction = true := by
        intro hc
        simp [Term.lambda?_of_isConstruction hc] at hl
      rw [Term.forall_components_of_not_isConstruction hc]
      exact iff_of_true rfl (Or.inr ⟨hl, hm⟩)
    | leaf _ _ hr _ =>
      rw [Term.forall_components_of_not_isConstruction (Dialect.not_isConstruction_of_render hr)]
      exact iff_of_true rfl (Or.inl ⟨_, hr⟩)
    | @faulty _ hl why hr =>
      by_cases hc : t.isConstruction = true
      · rw [Term.forall_components_of_isConstruction hc]
        have hinner : t.children.flatMap s.reasons = [] ↔ ∀ c ∈ t.children, ∀ u ∈ c.components,
            (∃ r, s.render u = .ok r) ∨ s.Captures u := by
          rw [List.flatMap_eq_nil_iff]
          exact forall_congr' fun c => forall_congr' (ih c)
        rw [← hinner]
        -- a construction adds no reason of its own
        cases t.children.flatMap s.reasons <;> simp [hc]
      · rw [Term.forall_components_of_not_isConstruction hc]
        refine iff_of_false ?_ ?_
        · cases t.children.flatMap s.reasons <;> simp [hc]
        · intro hself
          rcases hself with ⟨r, hok⟩ | ⟨hs, -⟩
          · rw [hr] at hok
            cases hok
          · simp [hl] at hs
    | deferred _ _ _ ha _ =>
      rw [hf] at ha
      cases ha

end Splitter

namespace Dialect

theorem forbidden_split_ok_iff (d : Dialect) (root : Param) (body : Term) :
    (∃ result, d.split .forbidden (.lambda [root] body) = .ok result) ↔
      (⟨d, .forbidden, root⟩ : Splitter).reasons body = [] := by
  have h := (⟨d, .forbidden, root⟩ : Splitter).split_eq body
  dsimp only at h
  rw [h]
  constructor
  · intro hok
    obtain ⟨result, hr⟩ := hok
    split at hr
    · cases hr
    · rename_i hn
      simpa using hn
  · intro hn
    rw [if_neg (by simp [hn])]
    split
    · exact ⟨_, rfl⟩
    · exact ⟨_, rfl⟩

/-- Without the client, a split is accepted exactly when each component of the body has a text or is
a lambda that mentions the root. The server can evaluate the body exactly when, in addition, those
lambdas have texts. -/
theorem forbidden_split_iff_evaluable_or_captured (d : Dialect) (root : Param) (body : Term) :
    ((∃ result, d.split .forbidden (.lambda [root] body) = .ok result) ↔
      ∀ u ∈ body.components, (∃ r, d.render (some root.name) u = .ok r) ∨
        u.lambda?.isSome = true ∧ u.mentions root.name = true) ∧
    (d.Evaluable (some root.name) body ↔
      (∃ result, d.split .forbidden (.lambda [root] body) = .ok result) ∧
      ∀ u ∈ body.components, u.lambda?.isSome = true → u.mentions root.name = true →
        ∃ r, d.render (some root.name) u = .ok r) := by
  have haccept : (∃ result, d.split .forbidden (.lambda [root] body) = .ok result) ↔
      ∀ u ∈ body.components, (∃ r, d.render (some root.name) u = .ok r) ∨
        u.lambda?.isSome = true ∧ u.mentions root.name = true := by
    rw [forbidden_split_ok_iff, Splitter.reasons_eq_nil_iff rfl]
    exact Iff.rfl
  refine ⟨haccept, ?_⟩
  rw [haccept, evaluable_iff]
  constructor
  · exact fun h => ⟨fun u hu => Or.inl (h u hu), fun u hu _ _ => h u hu⟩
  · intro hacc u hu
    obtain ⟨h, htext⟩ := hacc
    rcases h u hu with hr | ⟨hl, hm⟩
    · exact hr
    · exact htext u hu hl hm

def negatedAge : Term := .lambda [⟨"o", .object⟩] (.unary .negate personAge (.scalar .int32))

/-- A captured lambda that the server cannot evaluate is not refused. -/
theorem forbidden_split_accepts_negatedAge :
    (∃ result, Dialect.verbatim.split .forbidden (.lambda [person] (.tuple [personName, negatedAge])) =
      .ok result) ∧ ¬ Dialect.verbatim.Evaluable (some person.name) (.tuple [personName, negatedAge]) := by
  constructor
  · obtain ⟨result, h, -⟩ := exists_split_of_any Dialect.verbatim .forbidden
      (.lambda [person] (.tuple [personName, negatedAge])) (fun r => r.arity == 2) (by decide +kernel)
    exact ⟨result, h⟩
  · rw [evaluable_iff, Term.forall_components_of_isConstruction rfl]
    intro h
    have hm : negatedAge ∈ (Term.tuple [personName, negatedAge]).children := by simp
    obtain ⟨r, hr⟩ := (Term.forall_components_of_not_isConstruction (by simp [negatedAge,
      Term.isConstruction])).1 (h negatedAge hm)
    have he : (Dialect.verbatim.render (some person.name) negatedAge).toOption = none := by decide +kernel
    rw [hr] at he
    cases he

end Dialect
end RemoteQuery
