import RemoteQuery.Split.Basic

/-!
# What a split's walk computes

Without a state, the walk is three passes over a selector's body. One collects the leaves: the parts that the
server sends, and the root where a nested lambda captures it. One collects the reasons to leave parts to the
client. One makes what the client evaluates, once the slots of all leaves are known.
-/

namespace RemoteQuery

namespace Slots

def ofList (leaves : List Slot) : Slots := leaves.foldl insert empty

theorem texts_insert (slots : Slots) (slot : Slot) :
    (slots.insert slot).texts =
      if slot.text ∈ slots.texts then slots.texts else slots.texts ++ [slot.text] := by
  have h : slots.any (·.text == slot.text) = true ↔ slot.text ∈ slots.texts := by simp [texts]
  by_cases hs : slot.text ∈ slots.texts
  · rw [insert, if_pos (h.2 hs), if_pos hs]
  · rw [insert, if_neg fun ha => hs (h.1 ha), if_neg hs]
    simp [texts]

theorem nodup_texts_insert {slots : Slots} (h : slots.texts.Nodup) (slot : Slot) :
    (slots.insert slot).texts.Nodup := by
  rw [texts_insert]
  split
  · exact h
  · rename_i hs
    exact List.nodup_append.2 ⟨h, by simp, by rintro a ha b hb rfl; simp at hb; exact hs (hb ▸ ha)⟩

theorem nodup_texts_ofList (leaves : List Slot) : (ofList leaves).texts.Nodup := by
  suffices h : ∀ slots : Slots, slots.texts.Nodup → (leaves.foldl insert slots).texts.Nodup from
    h empty (by simp [empty, texts])
  induction leaves with
  | nil => exact fun _ h => h
  | cons leaf leaves ih => exact fun slots h => ih _ (nodup_texts_insert h leaf)

def typeOf (slots : Slots) (text : String) (default : Ty) : Ty :=
  ((slots.find? (·.text == text)).map (·.term.ty)).getD default

def item (slots : Slots) (tuple : Param) (text : String) (ty : Ty) : Term :=
  .member (some (.param tuple)) ⟨"Tuple", Ty.itemName (slots.indexOf text), ty⟩

def itemAs (slots : Slots) (tuple : Param) (text : String) (ty : Ty) : Term :=
  if slots.typeOf text ty = ty then slots.item tuple text ty
  else (slots.item tuple text (slots.typeOf text ty)).converted ty

end Slots

namespace Splitter

def leaves (s : Splitter) (t : Term) : List Slot :=
  match s.place t with
  | .free => []
  | .captured => [⟨rootText, .param s.root⟩]
  | .leaf text => [⟨text, t⟩]
  | .opened _ => t.children.attach.flatMap fun c => s.leaves c.1
termination_by sizeOf t
decreasing_by exact Term.sizeOf_lt_of_mem_children c.2

theorem leaves_eq (s : Splitter) (t : Term) :
    s.leaves t = match s.place t with
      | .free => []
      | .captured => [⟨rootText, .param s.root⟩]
      | .leaf text => [⟨text, t⟩]
      | .opened _ => t.children.flatMap s.leaves := by
  rw [leaves]; simp

def slots (s : Splitter) (t : Term) : Slots := .ofList (s.leaves t)

def obstacles (s : Splitter) (t : Term) : List Fault :=
  match s.render t with
  | .ok _ => []
  | .error why =>
    if t.isConstruction then t.children.attach.flatMap fun c => s.obstacles c.1 else [why]
termination_by sizeOf t
decreasing_by exact Term.sizeOf_lt_of_mem_children c.2

theorem obstacles_eq (s : Splitter) (t : Term) :
    s.obstacles t = match s.render t with
      | .ok _ => []
      | .error why => if t.isConstruction then t.children.flatMap s.obstacles else [why] := by
  rw [obstacles]; simp

/-- Why parts are left to the client, from left to right. Of nested parts only the innermost are
reported, and a construction never is. -/
def reasons (s : Splitter) (t : Term) : List Fault :=
  match s.place t with
  | .free => if s.clientUse = .forbidden then s.obstacles t else []
  | .captured | .leaf _ => []
  | .opened why =>
    match t.children.attach.flatMap fun c => s.reasons c.1 with
    | [] => if t.isConstruction then [] else why.toList
    | inner => inner
termination_by sizeOf t
decreasing_by exact Term.sizeOf_lt_of_mem_children c.2

theorem reasons_eq (s : Splitter) (t : Term) :
    s.reasons t = match s.place t with
      | .free => if s.clientUse = .forbidden then s.obstacles t else []
      | .captured | .leaf _ => []
      | .opened why => match t.children.flatMap s.reasons with
        | [] => if t.isConstruction then [] else why.toList
        | inner => inner := by
  rw [reasons]; simp

theorem reasons_of_opened {s : Splitter} {t : Term} {why : Option Fault} (h : s.place t = .opened why) :
    s.reasons t = if t.children.flatMap s.reasons = [] then
      (if t.isConstruction then none else why).toList else t.children.flatMap s.reasons := by
  rw [reasons_eq, h]
  dsimp only
  split
  · rename_i hnil
    rw [if_pos hnil]
    split <;> rfl
  · rename_i hne
    rw [if_neg hne]

def remainder (s : Splitter) (slots : Slots) (tuple : Param) (t : Term) : Term :=
  match s.place t with
  | .free => t
  | .captured => t.replace s.root.name (slots.item tuple rootText s.root.ty)
  | .leaf text => slots.itemAs tuple text t.ty
  | .opened _ => t.withChildren (t.children.attach.map fun c => s.remainder slots tuple c.1)
termination_by sizeOf t
decreasing_by exact Term.sizeOf_lt_of_mem_children c.2

theorem remainder_eq (s : Splitter) (slots : Slots) (tuple : Param) (t : Term) :
    s.remainder slots tuple t = match s.place t with
      | .free => t
      | .captured => t.replace s.root.name (slots.item tuple rootText s.root.ty)
      | .leaf text => slots.itemAs tuple text t.ty
      | .opened _ => t.withChildren (t.children.map (s.remainder slots tuple)) := by
  rw [remainder]; simp

end Splitter
end RemoteQuery
