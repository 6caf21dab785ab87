import RemoteQuery.Proofs.Term.Substitution
import RemoteQuery.Wire.Dialect

/-!
# Renaming

Renaming gives the free occurrences of a name another one and keeps their types. A walk that knows a
name as the root forgets it under a lambda that binds it, so it is the root that is known at a node
which is renamed there. A name that occurs nowhere takes the place of the root exactly: nothing else
becomes the root, and no lambda hides it.
-/

namespace RemoteQuery.Term

def rename (t : Term) (name fresh : String) : Term :=
  match t with
  | .param p => if p.name == name then .param ⟨fresh, p.ty⟩ else .param p
  | .lambda params body =>
    if binds params name then .lambda params body else .lambda params (body.rename name fresh)
  | t => t.withChildren (t.children.attach.map fun c => c.1.rename name fresh)
termination_by sizeOf t
decreasing_by
  · rw [lambda.sizeOf_spec]; omega
  · exact sizeOf_lt_of_mem_children c.2

theorem rename_eq (t : Term) (name fresh : String) :
    t.rename name fresh =
      if t.isParamNamed name then .param ⟨fresh, t.ty⟩
      else if t.hides name then t
      else t.withChildren (t.children.map fun c => c.rename name fresh) := by
  cases t with
  | param q =>
    rw [rename]
    simp [isParamNamed, hides, withChildren, ty]
  | lambda params body =>
    rw [rename]
    simp [isParamNamed, hides, children, withChildren]
  | _ =>
    rw [rename]
    · simp [isParamNamed, hides]
    · simp
    · simp

def renameRoot (t : Term) (root : Option String) (fresh : String) : Term :=
  match root with
  | some name => t.rename name fresh
  | none => t

def rootBelow (t : Term) (root : Option String) : Option String := root.filter fun name => !t.hides name

section Root

variable (root : Option String) (fresh : String)

theorem renameRoot_eq (t : Term) :
    t.renameRoot root fresh =
      if isRoot root t then .param ⟨fresh, t.ty⟩
      else t.withChildren (t.children.map fun c => c.renameRoot (t.rootBelow root) fresh) := by
  cases root with
  | none => simp [renameRoot, rootBelow, isRoot, withChildren_children]
  | some name =>
    rw [renameRoot, rename_eq]
    by_cases hh : t.hides name = true
    · simp [isRoot, rootBelow, Option.filter_some, hh, renameRoot, withChildren_children]
    · simp [isRoot, rootBelow, Option.filter_some, hh, renameRoot]

theorem renameRoot_lambda (params : List Param) (body : Term) :
    (lambda params body).renameRoot root fresh =
      .lambda params (body.renameRoot (rootBelow (.lambda params body) root) fresh) := by
  rw [renameRoot_eq, if_neg]
  · rfl
  · cases root <;> simp [isRoot, isParamNamed]

theorem rootBelow_lambda (p : Param) (body : Term) :
    rootBelow (.lambda [p] body) root = rootUnder root p := by
  cases root with
  | none => rfl
  | some name =>
    by_cases h : name = p.name
    · simp [rootBelow, rootUnder, hides, binds, h]
    · simp [rootBelow, rootUnder, hides, binds, Option.filter_some, h, Ne.symm h]

theorem renameRoot_of_children {t : Term} (hp : ∀ p, t ≠ .param p) (hl : t.lambda? = none) :
    t.renameRoot root fresh =
      t.withChildren (t.children.map fun c => c.renameRoot root fresh) := by
  have hroot : t.rootBelow root = root := by
    cases root <;> simp [rootBelow, hides_eq_false_of_lambda?_eq_none hl]
  rw [renameRoot_eq, hroot, if_neg]
  cases root with
  | none => simp [isRoot]
  | some name =>
    intro h
    obtain ⟨q, hq, -⟩ := isParamNamed_iff.1 h
    exact hp q hq

theorem of_renameRoot {α : Type} {f : Term → α} (hparam : ∀ p q : Param, f (.param p) = f (.param q))
    (hnode : ∀ u cs, f (withChildren u cs) = f u) (t : Term) : f (t.renameRoot root fresh) = f t := by
  rw [renameRoot_eq]
  split
  · rename_i h
    cases root with
    | none => cases h
    | some name =>
      obtain ⟨q, rfl, -⟩ := isParamNamed_iff.1 h
      exact hparam _ _
  · exact hnode _ _

theorem kind_renameRoot (t : Term) : (t.renameRoot root fresh).kind = t.kind :=
  of_renameRoot root fresh (fun _ _ => rfl) (fun u cs => by unfold withChildren; split <;> rfl) t

theorem isSome_lambda?_renameRoot (t : Term) :
    (t.renameRoot root fresh).lambda?.isSome = t.lambda?.isSome :=
  of_renameRoot (f := fun u => u.lambda?.isSome) root fresh (fun _ _ => rfl)
    (fun u cs => by unfold withChildren; split <;> rfl) t

theorem isConstruction_renameRoot (t : Term) :
    (t.renameRoot root fresh).isConstruction = t.isConstruction :=
  of_renameRoot root fresh (fun _ _ => rfl) (fun u cs => by unfold withChildren; split <;> rfl) t

theorem ty_renameRoot (t : Term) : (t.renameRoot root fresh).ty = t.ty := by
  induction t using inductionOn generalizing root with
  | step t ih =>
    cases hl : t.lambda? with
    | some pair =>
      obtain ⟨params, body⟩ := pair
      obtain rfl : t = .lambda params body := by
        cases t <;> cases hl
        rfl
      rw [renameRoot_lambda, ty, ty, ih body (by simp [children])]
    | none =>
      rw [renameRoot_eq]
      split
      · rfl
      · exact ty_withChildren hl _

end Root

section Fresh

variable {root : Option String} {fresh : String} {t : Term}

theorem hides_eq_false_of_not_mem_names (h : fresh ∉ t.names) : t.hides fresh = false :=
  Bool.eq_false_iff.2 fun hh => h (mem_names_of_hides hh)

theorem isParamNamed_eq_false_of_not_mem_names (h : fresh ∉ t.names) :
    t.isParamNamed fresh = false := by
  refine Bool.eq_false_iff.2 fun hp => ?_
  obtain ⟨q, rfl, rfl⟩ := isParamNamed_iff.1 hp
  exact h (name_mem_names_param q)

theorem mentions_eq_false_of_not_mem_names (h : fresh ∉ t.names) : t.mentions fresh = false := by
  induction t using inductionOn with
  | step t ih =>
    refine Bool.eq_false_iff.2 fun hm => ?_
    rcases (mentions_iff fresh t).1 hm with hp | ⟨-, c, hc, hm⟩
    · rw [isParamNamed_eq_false_of_not_mem_names h] at hp
      cases hp
    · rw [ih c hc fun hn => h (names_subset_of_mem_children hc hn)] at hm
      cases hm

theorem rename_of_mentions_eq_false {name : String} (h : t.mentions name = false) (fresh : String) :
    t.rename name fresh = t := by
  induction t using inductionOn with
  | step t ih =>
    have hparam := mt (fun hp => (mentions_iff name t).2 (Or.inl hp)) (Bool.eq_false_iff.1 h)
    rw [rename_eq, if_neg hparam]
    split
    · rfl
    · rename_i hh
      exact withChildren_map_eq_self t fun c hc =>
        ih c hc (mentions_eq_false_of_mem_children h (Bool.eq_false_iff.2 hh) hc)

theorem isParamNamed_withChildren (u : Term) (cs : List Term) (name : String) :
    (u.withChildren cs).isParamNamed name = u.isParamNamed name := by
  unfold withChildren
  split <;> rfl

theorem isRoot_renameRoot (h : fresh ∉ t.names) :
    isRoot (some fresh) (t.renameRoot root fresh) = isRoot root t := by
  rw [renameRoot_eq]
  split
  · rename_i hr
    rw [hr]
    simp [isRoot, isParamNamed]
  · rename_i hr
    rw [Bool.not_eq_true] at hr
    rw [hr]
    simp [isRoot, isParamNamed_withChildren, isParamNamed_eq_false_of_not_mem_names h]

theorem mentions_withChildren_map_iff (t : Term) (f : Term → Term) (name : String) :
    (t.withChildren (t.children.map f)).mentions name = true ↔
      t.isParamNamed name = true ∨ t.hides name = false ∧ ∃ c ∈ t.children, (f c).mentions name = true := by
  have hbelow : (∃ c ∈ t.children.map f, c.mentions name = true) ↔
      ∃ c ∈ t.children, (f c).mentions name = true := by
    rw [← List.any_eq_true, List.any_map, List.any_eq_true]
    rfl
  rw [mentions_iff, isParamNamed_withChildren, hides_withChildren,
    children_withChildren t (List.length_map f), hbelow]

theorem mentions_rename (h : fresh ∉ t.names) (name : String) :
    (t.rename name fresh).mentions fresh = t.mentions name := by
  induction t using inductionOn with
  | step t ih =>
    rw [rename_eq, Bool.eq_iff_iff, mentions_iff name t]
    split
    · rename_i hp
      simp [hp]
    · rename_i hp
      split
      · rename_i hh
        simp [mentions_eq_false_of_not_mem_names h, hp, hh]
      · rename_i hh
        have hchild : ∀ c ∈ t.children, (c.rename name fresh).mentions fresh = c.mentions name :=
          fun c hc => ih c hc fun hn => h (names_subset_of_mem_children hc hn)
        have hbelow : (∃ c ∈ t.children, (c.rename name fresh).mentions fresh = true) ↔
            ∃ c ∈ t.children, c.mentions name = true :=
          exists_congr fun c => and_congr_right fun hc => by rw [hchild c hc]
        rw [mentions_withChildren_map_iff, hbelow]
        simp [hp, hh, isParamNamed_eq_false_of_not_mem_names h, hides_eq_false_of_not_mem_names h]

end Fresh

end RemoteQuery.Term
