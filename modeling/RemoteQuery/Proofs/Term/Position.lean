import RemoteQuery.Term.Scope

/-!
# Positions in terms

A position is the path of child indices that leads from a term to one of its nodes. Equal subterms
at different positions are different nodes. A name is free at a position when a parameter of that
name stands there and no lambda on the way binds it; a term mentions exactly the names that are free
at one of its positions.
-/

namespace RemoteQuery.Term

def at? : Term → List Nat → Option Term
  | t, [] => some t
  | t, i :: p => t.children[i]?.bind fun c => c.at? p

@[simp] theorem at?_nil (t : Term) : t.at? [] = some t := rfl

theorem at?_cons (t : Term) (i : Nat) (p : List Nat) :
    t.at? (i :: p) = t.children[i]?.bind fun c => c.at? p := rfl

theorem at?_cons_eq_some {t u : Term} {i : Nat} {p : List Nat} :
    t.at? (i :: p) = some u ↔ ∃ c, t.children[i]? = some c ∧ c.at? p = some u := by
  rw [at?_cons, Option.bind_eq_some_iff]

def Every (P : Term → Prop) (t : Term) : Prop := ∀ p u, t.at? p = some u → P u

theorem every_iff {P : Term → Prop} {t : Term} :
    t.Every P ↔ P t ∧ ∀ c ∈ t.children, c.Every P := by
  constructor
  · intro h
    refine ⟨h [] t rfl, fun c hc p u hu => ?_⟩
    obtain ⟨i, hi⟩ := List.getElem?_of_mem hc
    exact h (i :: p) u (at?_cons_eq_some.2 ⟨c, hi, hu⟩)
  · intro hall p u hu
    obtain ⟨ht, hcs⟩ := hall
    cases p with
    | nil =>
      obtain rfl := Option.some.inj hu
      exact ht
    | cons i p =>
      obtain ⟨c, hc, hu⟩ := at?_cons_eq_some.1 hu
      exact hcs c (List.mem_of_getElem? hc) p u hu

theorem Every.below {P : Term → Prop} {t : Term} (h : t.Every P) : t.Every fun u => u.Every P := by
  induction t using inductionOn with
  | step t ih => exact every_iff.2 ⟨h, fun c hc => ih c hc ((every_iff.1 h).2 c hc)⟩

/-- A node of the same kind with the same data and as many children; only the children may differ. -/
def SameNode (t u : Term) : Prop :=
  u.children.length = t.children.length ∧ u = t.withChildren u.children

theorem SameNode.refl (t : Term) : t.SameNode t := ⟨rfl, t.withChildren_children.symm⟩

theorem sameNode_withChildren {t : Term} {cs : List Term} (h : cs.length = t.children.length) :
    t.SameNode (t.withChildren cs) := by
  rw [SameNode, children_withChildren t h]
  exact ⟨h, rfl⟩

theorem regroup_map_flatten {α β : Type} (f : α → β) (rows : List (List α)) :
    regroup rows (rows.flatten.map f) = rows.map (List.map f) := by
  induction rows with
  | nil => rfl
  | cons row rows ih =>
    rw [regroup, List.flatten_cons, List.map_append, List.take_left' (List.length_map f),
      List.drop_left' (List.length_map f), ih, List.map_cons]

theorem getElem?_children_withChildren_map (t : Term) (f : Term → Term) (i : Nat) :
    (t.withChildren (t.children.map f)).children[i]? = t.children[i]?.map f := by
  rw [children_withChildren t (by simp), List.getElem?_map]

theorem withChildren_map_eq_self (t : Term) {f : Term → Term} (h : ∀ c ∈ t.children, f c = c) :
    t.withChildren (t.children.map f) = t := by
  rw [List.map_congr_left h, List.map_id', withChildren_children]

theorem at?_withChildren_map_cons (t : Term) (f : Term → Term) (i : Nat) (p : List Nat) :
    (t.withChildren (t.children.map f)).at? (i :: p) = t.children[i]?.bind fun c => (f c).at? p := by
  rw [at?_cons, getElem?_children_withChildren_map]
  cases t.children[i]? <;> rfl

def hides (name : String) : Term → Bool
  | .lambda params _ => binds params name
  | _ => false

theorem hides_eq_false_of_lambda?_eq_none {t : Term} (h : t.lambda? = none) (name : String) :
    t.hides name = false := by
  cases t <;> first | rfl | simp [lambda?] at h

theorem hides_withChildren (name : String) (t : Term) (cs : List Term) :
    (t.withChildren cs).hides name = t.hides name := by
  unfold withChildren
  split <;> rfl

theorem ty_withChildren {t : Term} (h : t.lambda? = none) (cs : List Term) :
    (t.withChildren cs).ty = t.ty := by
  unfold withChildren
  split <;> first | rfl | cases h

/-- A parameter of that name stands at the position and no lambda on the way binds it. -/
def FreeAt (name : String) : Term → List Nat → Prop
  | t, [] => t.isParamNamed name = true
  | t, i :: p => t.hides name = false ∧ ∃ c, t.children[i]? = some c ∧ FreeAt name c p

theorem freeAt_lambda_iff {params : List Param} {body : Term} {name : String} {p : List Nat} :
    (lambda params body).FreeAt name p ↔
      binds params name = false ∧ ∃ q, p = 0 :: q ∧ body.FreeAt name q := by
  cases p with
  | nil => simp [FreeAt, isParamNamed]
  | cons i p => cases i <;> simp [FreeAt, hides, children]

def UnderLambda : Term → List Nat → Prop
  | _, [] => False
  | t, i :: p => t.lambda?.isSome = true ∨ ∃ c, t.children[i]? = some c ∧ UnderLambda c p

theorem lambda?_eq_none_of_not_underLambda {t : Term} {i : Nat} {p : List Nat}
    (h : ¬ t.UnderLambda (i :: p)) : t.lambda? = none := by
  cases hl : t.lambda? with
  | none => rfl
  | some pair => exact absurd (Or.inl (by rw [hl]; rfl)) h

theorem children_of_isParamNamed {t : Term} {name : String} (h : t.isParamNamed name = true) :
    t.children = [] := by
  cases t <;> first | rfl | simp [isParamNamed] at h

theorem isParamNamed_iff {t : Term} {name : String} :
    t.isParamNamed name = true ↔ ∃ q : Param, t = .param q ∧ q.name = name := by
  cases t <;> simp [isParamNamed]

theorem isParamNamed_eq_false_of_child {t c : Term} {i : Nat} (h : t.children[i]? = some c)
    (name : String) : t.isParamNamed name = false := by
  cases hp : t.isParamNamed name with
  | false => rfl
  | true => simp [children_of_isParamNamed hp] at h

theorem FreeAt.at? {name : String} {t : Term} {p : List Nat} (h : t.FreeAt name p) :
    ∃ q : Param, t.at? p = some (.param q) ∧ q.name = name := by
  induction p generalizing t with
  | nil =>
    obtain ⟨q, rfl, hq⟩ := isParamNamed_iff.1 h
    exact ⟨q, rfl, hq⟩
  | cons i p ih =>
    obtain ⟨_, c, hc, hf⟩ := h
    obtain ⟨q, hq, hn⟩ := ih hf
    exact ⟨q, at?_cons_eq_some.2 ⟨c, hc, hq⟩, hn⟩

theorem mentions_iff (name : String) (t : Term) :
    t.mentions name = true ↔
      t.isParamNamed name = true ∨ t.hides name = false ∧ ∃ c ∈ t.children, c.mentions name = true := by
  cases t with
  | param q => simp [isParamNamed, children]
  | lambda params body => simp [isParamNamed, children, hides]
  | _ =>
    rw [mentions_of_children name (by simp) (by simp)]
    simp [isParamNamed, hides]

theorem mentions_eq_false_of_mem_children {name : String} {t c : Term} (h : t.mentions name = false)
    (hh : t.hides name = false) (hc : c ∈ t.children) : c.mentions name = false :=
  Bool.eq_false_iff.2 fun hm =>
    Bool.eq_false_iff.1 h ((mentions_iff name t).2 (Or.inr ⟨hh, c, hc, hm⟩))

theorem mentions_iff_exists_freeAt (name : String) (t : Term) :
    t.mentions name = true ↔ ∃ p, t.FreeAt name p := by
  induction t using inductionOn with
  | step t ih =>
    rw [mentions_iff]
    constructor
    · intro hm
      rcases hm with h | ⟨hh, c, hc, hm⟩
      · exact ⟨[], h⟩
      · obtain ⟨p, hp⟩ := (ih c hc).1 hm
        obtain ⟨i, hi⟩ := List.getElem?_of_mem hc
        exact ⟨i :: p, hh, c, hi, hp⟩
    · intro hfree
      obtain ⟨p, hp⟩ := hfree
      cases p with
      | nil => exact Or.inl hp
      | cons i p =>
        obtain ⟨hh, c, hi, hp⟩ := hp
        have hc := List.mem_of_getElem? hi
        exact Or.inr ⟨hh, c, hc, (ih c hc).2 ⟨p, hp⟩⟩

theorem not_freeAt_of_mentions_eq_false {name : String} {t : Term} (h : t.mentions name = false)
    (p : List Nat) : ¬ t.FreeAt name p := by
  intro hf
  rw [(mentions_iff_exists_freeAt name t).2 ⟨p, hf⟩] at h
  cases h

theorem freeAt_of_at? {name : String} {t : Term} (h : t.Every fun u => u.hides name = false)
    {p : List Nat} {q : Param} (hp : t.at? p = some (.param q)) (hq : q.name = name) :
    t.FreeAt name p := by
  induction p generalizing t with
  | nil =>
    obtain rfl := Option.some.inj hp
    exact isParamNamed_iff.2 ⟨q, rfl, hq⟩
  | cons i p ih =>
    obtain ⟨c, hc, hp⟩ := at?_cons_eq_some.1 hp
    obtain ⟨hself, hchildren⟩ := every_iff.1 h
    exact ⟨hself, c, hc, ih (hchildren c (List.mem_of_getElem? hc)) hp⟩

end RemoteQuery.Term
