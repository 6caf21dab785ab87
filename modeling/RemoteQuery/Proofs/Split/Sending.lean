import RemoteQuery.Proofs.Split.Walk

/-!
# The projection that is sent

The terms of the slots are sent as one positional construction. Each term is written with the text
that its slot was found by, whatever stands beside it, so the construction always has a projection:
the texts of the slots in order, each named for its item.
-/

namespace RemoteQuery

def Slots.projectionText (slots : Slots) : String :=
  ",".intercalate (slots.texts.mapIdx fun i text => text ++ " as " ++ Ty.itemName i)

namespace Dialect

variable {d : Dialect} {root : Option String}

theorem namedText_eq_ok {t : Term} {text : String} (h : d.text root t = .ok text) (name : String) :
    d.namedText root name t = .ok (text ++ " as " ++ name) := by
  rw [namedText, h]
  rfl

theorem mapM_namedText_eq_ok {slots : Slots} (h : ∀ slot ∈ slots, d.text root slot.term = .ok slot.text)
    (name : Nat → String) :
    ((slots.map (·.term)).mapIdx fun i t => (name i, t)).mapM
        (fun part => d.namedText root part.1 part.2) =
      .ok (slots.texts.mapIdx fun i text => text ++ " as " ++ name i) := by
  -- The items may be numbered by any naming, so that the rest of a list is numbered on.
  induction slots generalizing name with
  | nil => rfl
  | cons slot slots ih =>
    have hfirst := namedText_eq_ok (h slot List.mem_cons_self) (name 0)
    have hrest := ih (fun s hs => h s (List.mem_cons_of_mem slot hs)) fun i => name (i + 1)
    simp only [List.map_cons, List.mapIdx_cons, List.mapM_cons, hfirst, hrest, Slots.texts, bind,
      Except.bind, pure, Except.pure]

theorem projectionOf_tuple {slots : Slots} (h : ∀ slot ∈ slots, d.text root slot.term = .ok slot.text) :
    d.projectionOf root (.tuple (slots.map (·.term))) = .ok slots.projectionText := by
  have hparts : (Term.tuple (slots.map (·.term))).parts? =
      some ((slots.map (·.term)).mapIdx fun i t => (Ty.itemName i, t)) := rfl
  rw [projectionOf, hparts]
  dsimp only
  rw [mapM_namedText_eq_ok h]
  rfl

end Dialect

namespace Splitter

theorem text_of_mem_slots {s : Splitter} {body : Term} {slot : Slot} (h : slot ∈ s.slots body) :
    s.dialect.text (some s.root.name) slot.term = .ok slot.text := by
  obtain ⟨r, hr, ht, -⟩ := render_of_mem_leaves (Slots.mem_of_mem_ofList h)
  rw [render] at hr
  rw [Dialect.text, hr, ← ht]
  rfl

theorem projectionOf_slots (s : Splitter) (body : Term) :
    s.dialect.projectionOf (some s.root.name) (.tuple ((s.slots body).map (·.term))) =
      .ok (s.slots body).projectionText :=
  Dialect.projectionOf_tuple fun _ h => text_of_mem_slots h

end Splitter
end RemoteQuery
