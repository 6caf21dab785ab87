import RemoteQuery.Proofs.Term.Freshness
import RemoteQuery.Proofs.Term.Renaming
import RemoteQuery.Proofs.Wire.Preference
import RemoteQuery.Wire.Query

/-!
# The name of the root

The root is written `this` or left out, so its own name is in no text and in no fault. Renaming the root
goes through every step of rendering: through the normalisation of operands and the form of a call, which
look at types and constants alone, and through the rule of each node, whose parts it renames.
-/

namespace RemoteQuery

structure Inconspicuous (φ : Term → Term) : Prop where
  ty : ∀ t, (φ t).ty = t.ty
  kind : ∀ t, (φ t).kind = t.kind
  constant : ∀ value ty, φ (.constant value ty) = .constant value ty
  unary : ∀ op t ty, φ (.unary op t ty) = .unary op (φ t) ty

theorem inconspicuous_renameRoot (root : Option String) (fresh : String) :
    Inconspicuous fun t => t.renameRoot root fresh where
  ty := Term.ty_renameRoot root fresh
  kind := Term.kind_renameRoot root fresh
  constant value ty := Term.renameRoot_of_children root fresh (by simp) rfl
  unary op t ty := Term.renameRoot_of_children root fresh (by simp) rfl

namespace Inconspicuous

variable {φ : Term → Term} (h : Inconspicuous φ)

include h

theorem unary_or (t : Term) : (∃ op u ty, t = .unary op u ty) ∨
    (∀ op u ty, t ≠ .unary op u ty) ∧ ∀ op u ty, φ t ≠ .unary op u ty := by
  cases t with
  | unary op u ty => exact Or.inl ⟨op, u, ty, rfl⟩
  | _ =>
    refine Or.inr ⟨by simp, fun op u ty he => ?_⟩
    have hk := congrArg Term.kind he
    rw [h.kind] at hk
    simp [Term.kind] at hk

theorem constant_or (t : Term) : (∃ value ty, t = .constant value ty) ∨
    (∀ value ty, t ≠ .constant value ty) ∧ ∀ value ty, φ t ≠ .constant value ty := by
  cases t with
  | constant value ty => exact Or.inl ⟨value, ty, rfl⟩
  | _ =>
    refine Or.inr ⟨by simp, fun value ty he => ?_⟩
    have hk := congrArg Term.kind he
    rw [h.kind] at hk
    simp [Term.kind] at hk

theorem constant?_map (t : Term) : (φ t).constant? = t.constant? := by
  rcases h.constant_or t with ⟨value, ty, rfl⟩ | ⟨ht, hφ⟩
  · rw [h.constant]
  · unfold Term.constant?
    split
    · exact absurd ‹_› (hφ _ _)
    · rfl

end Inconspicuous

namespace Operand

variable {φ : Term → Term} (h : Inconspicuous φ)

include h

theorem unboxed?_map (t : Term) (ty : Ty) : unboxed? (φ t) ty = (unboxed? t ty).map φ := by
  rcases h.unary_or t with ⟨op, u, via, rfl⟩ | ⟨ht, hφ⟩
  · rw [h.unary, unboxed?, unboxed?, h.ty]
    split <;> rfl
  · unfold unboxed?
    split
    · exact absurd ‹_› (hφ _ _ _)
    · rfl

theorem unlifted?_map (t : Term) (ty : Ty) : unlifted? (φ t) ty = (unlifted? t ty).map φ := by
  rw [unlifted?, unlifted?, h.ty]
  split <;> rfl

theorem untoggled?_map (t : Term) (ty : Ty) : untoggled? (φ t) ty = (untoggled? t ty).map φ := by
  rcases h.unary_or t with ⟨op, u, via, rfl⟩ | ⟨ht, hφ⟩
  · rw [h.unary]
    cases op with
    | convert =>
      rw [untoggled?, untoggled?, h.ty]
      split <;> rfl
    | _ => rfl
  · unfold untoggled?
    split
    · exact absurd ‹_› (hφ _ _ _)
    · split
      · exact absurd rfl (ht _ _ _)
      · rfl

theorem peel?_map (t : Term) : peel? (φ t) = (peel? t).map φ := by
  rcases h.unary_or t with ⟨op, u, ty, rfl⟩ | ⟨ht, hφ⟩
  · rw [h.unary]
    cases op with
    | convert =>
      rw [peel?, peel?, unboxed?_map h, unlifted?_map h, untoggled?_map h]
      cases unboxed? u ty <;> cases unlifted? u ty <;> rfl
    | _ => rfl
  · unfold peel?
    split
    · exact absurd ‹_› (hφ _ _ _)
    · split
      · exact absurd rfl (ht _ _ _)
      · rfl

theorem strip_map (t : Term) : strip (φ t) = φ (strip t) := by
  have hp := peel?_map h t
  cases hu : peel? t with
  | none =>
    rw [hu] at hp
    rw [strip_of_peel?_eq_none hu, strip_of_peel?_eq_none hp]
  | some u =>
    have := nodes_lt_of_peel? hu
    rw [hu] at hp
    rw [strip_of_peel? hu, strip_of_peel? hp, strip_map u]
termination_by t.nodes

theorem symbol?_map (ty target : Ty) (t : Term) :
    symbol? ty target (φ t) = (symbol? ty target t).map φ := by
  rcases h.constant_or t with ⟨value, given, rfl⟩ | ⟨ht, hφ⟩
  · rw [h.constant]
    unfold symbol?
    split
    · split
      · rw [Option.map_some, h.constant]
      · rfl
    · split
      · rw [Option.map_some, h.constant]
      · rfl
    · split
      · rw [Option.map_some, Term.nullOf, h.constant]
      · rfl
    · rfl
  · have hnone : ∀ u : Term, (∀ value ty, u ≠ .constant value ty) → symbol? ty target u = none := by
      intro u hu
      unfold symbol?
      split
      · exact absurd rfl (hu _ _)
      · exact absurd rfl (hu _ _)
      · exact absurd rfl (hu _ _)
      · rfl
    rw [hnone _ ht, hnone _ hφ]
    rfl

theorem compareSymbols?_map (t u : Term) :
    compareSymbols? (φ t) (φ u) = (compareSymbols? t u).map (Prod.map φ φ) := by
  rcases h.unary_or t with ⟨op, v, ty, rfl⟩ | ⟨ht, hφ⟩
  · rw [h.unary]
    cases op with
    | convert =>
      rw [compareSymbols?, compareSymbols?, h.ty, symbol?_map h]
      cases symbol? v.ty ty u <;> rfl
    | _ => rfl
  · unfold compareSymbols?
    split
    · exact absurd ‹_› (hφ _ _ _)
    · split
      · exact absurd rfl (ht _ _ _)
      · rfl

theorem normalise_map (op : BinaryOp) (left right : Term) :
    normalise op (φ left) (φ right) = (normalise op left right).map φ φ := by
  rw [normalise, normalise, strip_map h, strip_map h, compareSymbols?_map h, compareSymbols?_map h]
  split
  · cases compareSymbols? (strip left) (strip right) with
    | some pair => rfl
    | none => cases compareSymbols? (strip right) (strip left) <;> rfl
  · rfl

end Operand

namespace Operand

theorem inherited_names_subset (names : List String) : Inherited fun t => t.names ⊆ names where
  operand op t ty h := List.Subset.trans (Term.names_subset_of_mem_children (by simp [Term.children])) h
  constant value ty := by simp [Term.names_eq, Term.ownNames, Term.children]

theorem names_normalise_subset (op : BinaryOp) (left right : Term) :
    (normalise op left right).1.names ⊆ left.names ∧
      (normalise op left right).2.names ⊆ right.names :=
  (inherited_names_subset left.names).normalise (inherited_names_subset right.names) op
    (List.Subset.refl _) (List.Subset.refl _)

end Operand

namespace Dialect

theorem names_subset_of_reads {t : Term} {parts : List Term} (h : Reads t parts) {u : Term}
    (hu : u ∈ parts) : u.names ⊆ t.names := by
  cases h with
  | operands ht hp =>
    rename_i op left right ty
    subst ht hp
    obtain ⟨hl, hr⟩ := Operand.names_normalise_subset op left right
    rcases List.mem_cons.1 hu with rfl | hu
    · exact List.Subset.trans hl (Term.names_subset_of_mem_children (by simp [Term.children]))
    · obtain rfl := List.mem_singleton.1 hu
      exact List.Subset.trans hr (Term.names_subset_of_mem_children (by simp [Term.children]))
  | children hsub _ => exact Term.names_subset_of_mem_children (hsub u hu)

end Dialect

namespace CallForm

def map (φ : Term → Term) : CallForm → CallForm
  | .membership set value => .membership (φ set) (φ value)
  | .lookup dictionary key safe => .lookup (φ dictionary) (φ key) safe
  | .mapped => .mapped

theorem of_map {φ : Term → Term} (h : Inconspicuous φ) (method : Method) (operands : List Term) :
    of method (operands.map φ) = (of method operands).map φ := by
  match operands with
  | [] | [_] | _ :: _ :: _ :: _ => rfl
  | [receiver, other] =>
    simp only [List.map_cons, List.map_nil, of, h.ty]
    split
    · rfl
    · split
      · rfl
      · split <;> rfl

end CallForm

theorem Rule.mapM_congr {α β : Type} {f g : α → Except Fault β} {l : List α}
    (h : ∀ a ∈ l, f a = g a) : l.mapM f = l.mapM g := by
  induction l with
  | nil => rfl
  | cons a l ih =>
    rw [List.mapM_cons, List.mapM_cons, h a List.mem_cons_self,
      ih fun b hb => h b (List.mem_cons_of_mem a hb)]

namespace Dialect

variable {d : Dialect} {root : Option String} {fresh : String} {t : Term}

def renamePart (fresh : String) (part : Option String × Term) : Option String × Term :=
  (some fresh, part.2.renameRoot part.1 fresh)

def renameRule (fresh : String) (rule : Rule) : Rule :=
  ⟨rule.parts.map (renamePart fresh), rule.prefersLocal, rule.write⟩

theorem renameRule_listed (root : Option String) (ts : List Term) (f : List String → String) :
    renameRule fresh (.listed root ts f) =
      .listed (some fresh) (ts.map fun t => t.renameRoot root fresh) f := by
  rw [renameRule, Rule.listed, Rule.listed, List.map_map, List.map_map]
  rfl

theorem renameRule_mapped (mapping : Mapping) (root : Option String) (ts : List Term) :
    renameRule fresh (.mapped mapping root ts) =
      .mapped mapping (some fresh) (ts.map fun t => t.renameRoot root fresh) := by
  rw [renameRule, Rule.mapped, Rule.mapped, List.map_map, List.map_map]
  rfl

theorem not_mem_names_child {c : Term} (h : fresh ∉ t.names) (hc : c ∈ t.children) :
    fresh ∉ c.names := fun hn => h (Term.names_subset_of_mem_children hc hn)

theorem rule_renameRoot_call {target : Option Term} {method : Method} {args : List Term}
    (h : fresh ∉ (Term.call target method args).names) :
    d.rule (some fresh) ((Term.call target method args).renameRoot root fresh) =
      (d.rule root (.call target method args)).map (renameRule fresh) := by
  have hφ := inconspicuous_renameRoot root fresh
  have hcall : (Term.call target method args).renameRoot root fresh =
      .call (target.map fun t => t.renameRoot root fresh) method
        (args.map fun t => t.renameRoot root fresh) := by
    rw [Term.renameRoot_of_children root fresh (by simp) rfl]
    cases target <;> rfl
  have hops : (target.map fun t => t.renameRoot root fresh).toList ++
      args.map (fun t => t.renameRoot root fresh) =
        (target.toList ++ args).map fun t => t.renameRoot root fresh := by
    cases target <;> rfl
  rw [hcall, rule, rule, hops, CallForm.of_map hφ]
  cases hf : CallForm.of method (target.toList ++ args) with
  | membership set value => rfl
  | lookup dictionary key safe =>
    have hd := not_mem_names_child h (CallForm.mem_of_lookup hf : dictionary ∈ target.toList ++ args)
    simp only [CallForm.map, hφ.constant?_map]
    cases key.constant?.bind Literal.string? with
    | none =>
      simp only [lookupFault, hφ.kind]
      rfl
    | some name =>
      simp only [Term.isRoot_renameRoot hd]
      split <;> rfl
  | mapped =>
    simp only [CallForm.map]
    cases d.mappings.resolve? method.mappedSignature with
    | none => rfl
    | some mapping => exact congrArg Except.ok (renameRule_mapped mapping root _).symm

theorem rule_renameRoot (h : fresh ∉ t.names) :
    d.rule (some fresh) (t.renameRoot root fresh) = (d.rule root t).map (renameRule fresh) := by
  have hφ := inconspicuous_renameRoot root fresh
  have hchild : ∀ c ∈ t.children, isRoot (some fresh) (c.renameRoot root fresh) = isRoot root c :=
    fun c hc => Term.isRoot_renameRoot (not_mem_names_child h hc)
  cases t with
  | binary op left right ty =>
    rw [Term.renameRoot_of_children root fresh (by simp) rfl]
    simp only [Term.children, List.map_cons, List.map_nil, Term.withChildren, rule,
      Operand.normalise_map hφ]
    cases op.token? <;> rfl
  | unary op operand ty =>
    rw [hφ.unary]
    cases op with
    | not | typeAs | negate => rfl
    | convert =>
      simp only [rule, hφ.ty, hchild operand (by simp [Term.children])]
      split
      · rfl
      · split <;> rfl
  | member target m =>
    rw [Term.renameRoot_of_children root fresh (by simp) rfl]
    cases target with
    | none =>
      simp only [Term.withChildren, rule]
      cases d.mappings.resolve? m.signature <;> rfl
    | some target =>
      simp only [Term.children, Option.toList_some, List.map_cons, List.map_nil, Term.withChildren,
        rule, hchild target (by simp [Term.children])]
      cases d.mappings.resolve? m.signature with
      | some mapping => rfl
      | none =>
        dsimp only
        split <;> rfl
  | constant value ty => rw [hφ.constant]; rfl
  | call target method args => exact rule_renameRoot_call h
  | typeTest target tested =>
    rw [Term.renameRoot_of_children root fresh (by simp) rfl]
    simp only [Term.children, List.map_cons, List.map_nil, Term.withChildren, rule,
      hchild target (by simp [Term.children])]
    split <;> rfl
  | lambda params body =>
    rw [Term.renameRoot_lambda]
    -- Only a lambda with one parameter can hide the root, and the fresh name is not its parameter.
    rcases params with _ | ⟨p, _ | ⟨q, params⟩⟩
    · unfold rule
      rfl
    · have hp : fresh ≠ p.name := by
        intro he
        exact h (Term.mem_names_of_hides (by simp [Term.hides, Term.binds, he]))
      have hvisible : rootUnder (some fresh) p = some fresh := if_neg fun he => hp (Option.some.inj he)
      rw [Term.rootBelow_lambda]
      simp only [rule, hvisible]
      rfl
    · unfold rule
      rfl
  | conditional test onTrue onFalse ty =>
    rw [Term.renameRoot_of_children root fresh (by simp) rfl]
    rfl
  | param p =>
    have hp : fresh ≠ p.name := fun he => h (he ▸ Term.name_mem_names_param p)
    rw [Term.renameRoot_eq]
    by_cases hr : root = some p.name
    · rw [if_pos (by simp [isRoot, Term.isParamNamed, hr])]
      simp only [rule, hr, if_true]
      rfl
    · have hn : ¬ isRoot root (.param p) = true := by
        intro he
        obtain ⟨q, hq, hroot⟩ := eq_param_of_isRoot he
        cases hq
        exact hr hroot
      rw [if_neg hn]
      simp only [Term.withChildren, rule, if_neg hr, if_neg fun he => hp (Option.some.inj he)]
      rfl
  | array elements ty =>
    rw [Term.renameRoot_of_children root fresh (by simp) rfl]
    exact congrArg Except.ok (renameRule_listed root elements _).symm
  | construct names args ty =>
    rw [Term.renameRoot_of_children root fresh (by simp) rfl]
    rfl
  | listInit rows ty =>
    rw [Term.renameRoot_of_children root fresh (by simp) rfl]
    rfl

theorem render_renameRoot (root : Option String) {t : Term} (h : fresh ∉ t.names) :
    d.render (some fresh) (t.renameRoot root fresh) = d.render root t := by
  rw [render_eq_rule, render_eq_rule, rule_renameRoot h]
  cases hrule : d.rule root t with
  | error fault => rfl
  | ok rule =>
    have hparts : (rule.parts.map (renamePart fresh)).mapM (fun part => d.render part.1 part.2) =
        rule.parts.mapM fun part => d.render part.1 part.2 := by
      rw [List.mapM_map]
      refine Rule.mapM_congr fun part hpart => ?_
      have hu := List.mem_map_of_mem (f := (·.2)) hpart
      have := nodes_lt_of_reads (reads_of_rule hrule).2 hu
      exact render_renameRoot _ fun hn => h (names_subset_of_reads (reads_of_rule hrule).2 hu hn)
    show (renameRule fresh rule).run d.render = rule.run d.render
    rw [Rule.run, Rule.run, renameRule, hparts]
termination_by t.nodes

end Dialect

namespace Dialect

/-- A term that does not mention the root is written as it is without a root, and fails alike. Lambdas in it
may bind the root's name. -/
theorem render_of_mentions_eq_false (d : Dialect) {name : String} {t : Term}
    (h : t.mentions name = false) : d.render (some name) t = d.render none t := by
  have hfresh := t.freshName_not_mem_names
  calc d.render (some name) t
      = d.render (some t.freshName) (t.renameRoot (some name) t.freshName) :=
        (render_renameRoot (some name) hfresh).symm
    _ = d.render (some t.freshName) (t.renameRoot none t.freshName) := by
        rw [Term.renameRoot, Term.rename_of_mentions_eq_false h, Term.renameRoot]
    _ = d.render none t := render_renameRoot none hfresh

def sameNameAs : Term :=
  .lambda [⟨"x", .object⟩] (.operation .equal
    ((Term.parameter "x" .object).property "Name" (.scalar .string))
    ((Term.parameter "y" .object).property "Name" (.scalar .string)))

theorem render_of_mentions_eq_false_sameNameAs :
    sameNameAs.mentions "x" = false ∧
      camelCased.render (some "x") sameNameAs =
        camelCased.render none sameNameAs := by
  have h : sameNameAs.mentions "x" = false := by simp [sameNameAs, Term.binds]
  exact ⟨h, render_of_mentions_eq_false _ h⟩

end Dialect

namespace Term

variable (root : Option String) (fresh : String)

def rowPart? (row : List Term) : Option (String × Term) :=
  match row with
  | [key, value] =>
    if value.isNullConstant then none else (key.constant?.bind Literal.string?).map (·, value)
  | _ => none

theorem parts?_listInit (rows : List (List Term)) (ty : Ty) :
    (listInit rows ty).parts? = rows.mapM rowPart? := rfl

theorem rowPart?_map {φ : Term → Term} (hφ : Inconspicuous φ) (row : List Term) :
    rowPart? (row.map φ) = (rowPart? row).map fun part => (part.1, φ part.2) := by
  match row with
  | [] | [_] | _ :: _ :: _ :: _ => rfl
  | [key, value] =>
    have hnull : (φ value).isNullConstant = value.isNullConstant := by
      rw [isNullConstant, isNullConstant, hφ.constant?_map]
    rw [List.map_cons, List.map_cons, List.map_nil, rowPart?, rowPart?, hnull, hφ.constant?_map]
    cases value.isNullConstant with
    | true => rfl
    | false => cases key.constant?.bind Literal.string? <;> rfl

theorem mapM_map_comm {α β : Type} {f : α → Option β} {g : α → α} {k : β → β}
    (h : ∀ a, f (g a) = (f a).map k) (l : List α) :
    (l.map g).mapM f = (l.mapM f).map (List.map k) := by
  induction l with
  | nil => rfl
  | cons a l ih =>
    rw [List.map_cons, List.mapM_cons, List.mapM_cons, ih, h]
    cases f a <;> cases l.mapM f <;> rfl

theorem parts?_eq_none {t : Term} (h : t.isConstruction = false) : t.parts? = none := by
  cases t <;> first | rfl | cases h

theorem parts?_renameRoot (t : Term) : (t.renameRoot root fresh).parts? =
    t.parts?.map (List.map fun part => (part.1, part.2.renameRoot root fresh)) := by
  have hφ := inconspicuous_renameRoot root fresh
  cases t with
  | construct names args ty =>
    rw [renameRoot_of_children root fresh (by simp) rfl]
    refine congrArg some (List.ext_getElem? fun i => ?_)
    simp [children, Option.map_map, Function.comp_def]
  | listInit rows ty =>
    rw [renameRoot_of_children root fresh (by simp) rfl, parts?_listInit]
    simp only [children, withChildren, regroup_map_flatten, parts?_listInit]
    exact mapM_map_comm (rowPart?_map hφ) rows
  | _ =>
    rw [parts?_eq_none (isConstruction_renameRoot root fresh _)]
    rfl

theorem mem_of_mapM_eq_some {α β : Type} {f : α → Option β} {l : List α} {bs : List β}
    (h : l.mapM f = some bs) {b : β} (hb : b ∈ bs) : ∃ a ∈ l, f a = some b := by
  induction l generalizing bs with
  | nil =>
    obtain rfl := Option.some.inj h
    cases hb
  | cons a l ih =>
    rw [List.mapM_cons] at h
    obtain ⟨r, hr, h⟩ := Option.bind_eq_some_iff.1 h
    obtain ⟨rs, hrs, h⟩ := Option.bind_eq_some_iff.1 h
    obtain rfl := Option.some.inj h
    rcases List.mem_cons.1 hb with rfl | hb
    · exact ⟨a, List.mem_cons_self, hr⟩
    · obtain ⟨c, hc, hf⟩ := ih hrs hb
      exact ⟨c, List.mem_cons_of_mem a hc, hf⟩

theorem mem_of_rowPart? {row : List Term} {part : String × Term} (h : rowPart? row = some part) :
    part.2 ∈ row := by
  unfold rowPart? at h
  split at h
  · split at h
    · cases h
    · obtain ⟨name, -, rfl⟩ := Option.map_eq_some_iff.1 h
      simp
  · cases h

theorem mem_children_of_mem_parts? {t : Term} {parts : List (String × Term)}
    (h : t.parts? = some parts) {part : String × Term} (hp : part ∈ parts) : part.2 ∈ t.children := by
  cases t with
  | construct names args ty =>
    obtain rfl := Option.some.inj h
    obtain ⟨i, hi, rfl⟩ := List.mem_mapIdx.1 hp
    exact List.getElem_mem hi
  | listInit rows ty =>
    obtain ⟨row, hr, hf⟩ := mem_of_mapM_eq_some h hp
    exact List.mem_flatten.2 ⟨row, hr, mem_of_rowPart? hf⟩
  | _ => cases h

end Term

namespace Dialect

variable {d : Dialect} {root : Option String} {fresh : String} {t : Term}

theorem namedText_renameRoot (h : fresh ∉ t.names) (name : String) :
    d.namedText (some fresh) name (t.renameRoot root fresh) = d.namedText root name t := by
  rw [namedText, namedText, text, text, render_renameRoot root h]

theorem projectionOf_renameRoot (root : Option String) (h : fresh ∉ t.names) :
    d.projectionOf (some fresh) (t.renameRoot root fresh) = d.projectionOf root t := by
  rw [projectionOf, projectionOf, Term.parts?_renameRoot]
  cases hp : t.parts? with
  | none => exact namedText_renameRoot h "this"
  | some parts =>
    have hparts : (parts.map fun part => (part.1, part.2.renameRoot root fresh)).mapM
        (fun part => d.namedText (some fresh) part.1 part.2) =
          parts.mapM fun part => d.namedText root part.1 part.2 := by
      rw [List.mapM_map]
      exact Rule.mapM_congr fun part hpart => namedText_renameRoot
        (not_mem_names_child h (Term.mem_children_of_mem_parts? hp hpart)) part.1
    simp only [Option.map_some, hparts]

end Dialect

end RemoteQuery
