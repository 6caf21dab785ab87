import RemoteQuery.Proofs.Split.Hygiene
import RemoteQuery.Proofs.Wire.Renaming

/-!
# Selectors under another root name

A selector may give its parameter any name that it does not use otherwise. Every part is then placed as it
was, for the same reasons, and the leaves are the renamed ones with their old texts. So the same values are
asked for in the same order, and the same is left to the client.
-/

namespace RemoteQuery

namespace Term

theorem children_rename {t : Term} (h : t.lambda? = none) (name fresh : String) :
    (t.rename name fresh).children = t.children.map fun c => c.rename name fresh := by
  rw [rename_eq]
  split
  · rename_i hp
    rw [children_of_isParamNamed hp]
    rfl
  · rw [if_neg (by simp [hides_eq_false_of_lambda?_eq_none h])]
    exact children_withChildren t (List.length_map _)

end Term

def Slot.rename (name fresh : String) (slot : Slot) : Slot := ⟨slot.text, slot.term.rename name fresh⟩

namespace Slots

variable (name fresh : String)

theorem texts_map_rename (slots : Slots) : texts (slots.map (Slot.rename name fresh)) = slots.texts := by
  rw [texts, texts, List.map_map]
  rfl

theorem insert_map_rename (slots : Slots) (slot : Slot) :
    insert (slots.map (Slot.rename name fresh)) (slot.rename name fresh) =
      (slots.insert slot).map (Slot.rename name fresh) := by
  rw [insert, insert, List.any_map]
  have hany : (slots.any ((fun s => s.text == (slot.rename name fresh).text) ∘ Slot.rename name fresh)) =
      slots.any (·.text == slot.text) := rfl
  rw [hany]
  split
  · rfl
  · rw [List.map_append, List.map_singleton]

theorem ofList_map_rename (leaves : List Slot) :
    ofList (leaves.map (Slot.rename name fresh)) = (ofList leaves).map (Slot.rename name fresh) := by
  suffices h : ∀ slots : Slots,
      (leaves.map (Slot.rename name fresh)).foldl insert (slots.map (Slot.rename name fresh)) =
        (leaves.foldl insert slots).map (Slot.rename name fresh) from h empty
  induction leaves with
  | nil => exact fun _ => rfl
  | cons leaf leaves ih =>
    intro slots
    rw [List.map_cons, List.foldl_cons, List.foldl_cons, insert_map_rename, ih]

end Slots

namespace Splitter

def withRootName (s : Splitter) (fresh : String) : Splitter :=
  ⟨s.dialect, s.clientUse, ⟨fresh, s.root.ty⟩⟩

variable {s : Splitter} {fresh : String} {t : Term}

theorem render_withRootName (h : fresh ∉ t.names) :
    (s.withRootName fresh).render (t.rename s.root.name fresh) = s.render t :=
  Dialect.render_renameRoot (some s.root.name) h

theorem place_withRootName (h : fresh ∉ t.names) :
    (s.withRootName fresh).place (t.rename s.root.name fresh) = s.place t := by
  have hm : (t.rename s.root.name fresh).mentions (s.withRootName fresh).root.name =
      t.mentions s.root.name := Term.mentions_rename h s.root.name
  have hl := Term.isSome_lambda?_renameRoot (some s.root.name) fresh t
  rw [place, place, hm, render_withRootName h]
  simp only [Term.renameRoot] at hl
  rw [hl]
  rfl

theorem obstacles_withRootName (h : fresh ∉ t.names) :
    (s.withRootName fresh).obstacles (t.rename s.root.name fresh) = s.obstacles t := by
  induction t using Term.inductionOn with
  | step t ih =>
    have hc := Term.isConstruction_renameRoot (some s.root.name) fresh t
    simp only [Term.renameRoot] at hc
    rw [obstacles_eq, obstacles_eq, render_withRootName h, hc]
    cases s.render t with
    | ok r => rfl
    | error why =>
      by_cases hk : t.isConstruction = true
      · have hl : t.lambda? = none := by
          cases t <;> first | rfl | cases hk
        simp only [hk, if_true]
        rw [Term.children_rename hl, List.flatMap_map]
        exact List.flatMap_congr fun c hc => ih c hc (Dialect.not_mem_names_child h hc)
      · simp only [hk]
        rfl

theorem reasons_withRootName (h : fresh ∉ t.names) :
    (s.withRootName fresh).reasons (t.rename s.root.name fresh) = s.reasons t := by
  induction t using Term.inductionOn with
  | step t ih =>
    have hc := Term.isConstruction_renameRoot (some s.root.name) fresh t
    simp only [Term.renameRoot] at hc
    rw [reasons_eq, reasons_eq, place_withRootName h]
    cases hp : s.place t with
    | free =>
      dsimp only
      rw [obstacles_withRootName h]
      rfl
    | captured | leaf text => rfl
    | opened why =>
      have hchildren : (t.rename s.root.name fresh).children.flatMap (s.withRootName fresh).reasons =
          t.children.flatMap s.reasons := by
        rw [Term.children_rename (lambda?_of_place_opened hp), List.flatMap_map]
        exact List.flatMap_congr fun c hc => ih c hc (Dialect.not_mem_names_child h hc)
      dsimp only
      rw [hchildren, hc]

theorem leaves_withRootName (h : fresh ∉ t.names) :
    (s.withRootName fresh).leaves (t.rename s.root.name fresh) =
      (s.leaves t).map (Slot.rename s.root.name fresh) := by
  induction t using Term.inductionOn with
  | step t ih =>
    rw [leaves_eq, leaves_eq, place_withRootName h]
    cases hp : s.place t with
    | free | leaf text => rfl
    | captured =>
      have hroot : (Term.param s.root).rename s.root.name fresh = .param ⟨fresh, s.root.ty⟩ := by
        rw [Term.rename]
        simp
      simp only [List.map_cons, List.map_nil, Slot.rename, hroot]
      rfl
    | opened why =>
      dsimp only
      rw [Term.children_rename (lambda?_of_place_opened hp), List.flatMap_map, List.map_flatMap]
      exact List.flatMap_congr fun c hc => ih c hc (Dialect.not_mem_names_child h hc)

theorem slots_withRootName (h : fresh ∉ t.names) :
    (s.withRootName fresh).slots (t.rename s.root.name fresh) =
      (s.slots t).map (Slot.rename s.root.name fresh) := by
  rw [slots, slots, leaves_withRootName h, Slots.ofList_map_rename]

end Splitter

/-- What a split shows but the terms of its two sides. -/
def Split.outline (result : Split) : Nat × Option String × List Fault :=
  (result.arity, result.serverText?, result.reasons)

namespace Splitter

theorem outline_withRootName {s : Splitter} {fresh : String} {body : Term} (h : fresh ∉ body.names) :
    (s.dialect.split s.clientUse
        (.lambda [⟨fresh, s.root.ty⟩] (body.rename s.root.name fresh))).map Split.outline =
      (s.dialect.split s.clientUse (.lambda [s.root] body)).map Split.outline := by
  have hnew := (s.withRootName fresh).split_eq (body.rename s.root.name fresh)
  have htexts := Slots.texts_map_rename s.root.name fresh (s.slots body)
  have hprojection : Slots.projectionText ((s.slots body).map (Slot.rename s.root.name fresh)) =
      (s.slots body).projectionText := by
    rw [Slots.projectionText, Slots.projectionText, htexts]
  have hbare : Slots.isBareRoot ((s.slots body).map (Slot.rename s.root.name fresh)) =
      (s.slots body).isBareRoot := by
    rw [Slots.isBareRoot, Slots.isBareRoot, htexts]
  have huse : (s.withRootName fresh).clientUse = s.clientUse := rfl
  -- A split is determined by the reasons, the texts of the slots and how the root is used.
  rw [reasons_withRootName h, slots_withRootName h, hprojection, hbare, List.isEmpty_map, huse] at hnew
  refine (congrArg (Except.map Split.outline) hnew).trans ?_
  rw [split_eq]
  by_cases hrefused : s.clientUse = .forbidden ∧ s.reasons body ≠ []
  · rw [if_pos hrefused, if_pos hrefused]
  · rw [if_neg hrefused, if_neg hrefused]
    by_cases hlocal : (s.slots body).isEmpty ∨ (s.slots body).isBareRoot
    · rw [if_pos hlocal, if_pos hlocal]
      rfl
    · rw [if_neg hlocal, if_neg hlocal]
      simp only [Except.map, Split.outline, Split.arity, List.length_map]

end Splitter

namespace Dialect

/-- The texts of a query, its faults and what its split sends and reports do not depend on the name of
its parameter. -/
theorem root_name_immaterial (d : Dialect) (root : Param) (body : Term) {fresh : String}
    (h : fresh ∉ (Term.lambda [root] body).names) :
    d.predicate (.lambda [⟨fresh, root.ty⟩] (body.rename root.name fresh)) =
        d.predicate (.lambda [root] body) ∧
      d.projection (.lambda [⟨fresh, root.ty⟩] (body.rename root.name fresh)) =
        d.projection (.lambda [root] body) ∧
      ∀ use, (d.split use (.lambda [⟨fresh, root.ty⟩] (body.rename root.name fresh))).map
          Split.outline = (d.split use (.lambda [root] body)).map Split.outline := by
  have hbody : fresh ∉ body.names := not_mem_names_child h (by simp [Term.children])
  have htext : d.text (some fresh) (body.rename root.name fresh) = d.text (some root.name) body :=
    congrArg (Except.map Rendered.text) (render_renameRoot (some root.name) hbody)
  have hprojection : d.projectionOf (some fresh) (body.rename root.name fresh) =
      d.projectionOf (some root.name) body := projectionOf_renameRoot (some root.name) hbody
  refine ⟨?_, hprojection, fun use => ?_⟩
  · have hquery : d.bodyText (.lambda [⟨fresh, root.ty⟩] (body.rename root.name fresh)) =
        d.bodyText (.lambda [root] body) := htext
    rw [predicate, predicate, hquery]
  · exact Splitter.outline_withRootName (s := ⟨d, use, root⟩) hbody

theorem root_name_immaterial_personNames :
    "z" ∉ (Term.lambda [person] Splitter.personNames).names ∧
      Dialect.verbatim.predicate (.lambda [⟨"z", person.ty⟩] (Splitter.personNames.rename person.name "z")) =
        Dialect.verbatim.predicate (.lambda [person] Splitter.personNames) ∧
      Dialect.verbatim.projection (.lambda [⟨"z", person.ty⟩] (Splitter.personNames.rename person.name "z")) =
        Dialect.verbatim.projection (.lambda [person] Splitter.personNames) ∧
      ∀ use, (Dialect.verbatim.split use
          (.lambda [⟨"z", person.ty⟩] (Splitter.personNames.rename person.name "z"))).map Split.outline =
        (Dialect.verbatim.split use (.lambda [person] Splitter.personNames)).map Split.outline :=
  have h : "z" ∉ (Term.lambda [person] Splitter.personNames).names := by
    have hnames : (Term.lambda [person] Splitter.personNames).names =
      ["x", "x", "t", "t0", "x", "x", "x", "x", "y"] := by decide +kernel
    rw [hnames]
    decide
  ⟨h, root_name_immaterial Dialect.verbatim person Splitter.personNames h⟩

end Dialect

end RemoteQuery
