import RemoteQuery.Proofs.Split.Restoration

/-!
# Types of the items that the client reads

Every read of the tuple in the client's lambda names one of its items. A read in place of a leaf has
the type of the item and is converted to the type of the leaf where the two differ. A captured root
is read with the declared type of the root, whatever the type of its slot. So all reads have the types
of their items exactly when no root is captured or the slot of the root has the declared type.
-/

namespace RemoteQuery

namespace Term

variable {P : Term → Prop} {tuple : String} {t : Term}

theorem every_of_not_mem_names (hP : ∀ u : Term, u.read? tuple = none → P u) (h : tuple ∉ t.names) :
    t.Every P := by
  induction t using inductionOn with
  | step t ih =>
    refine every_iff.2 ⟨hP t (read?_of_not_mem_names h), fun c hc => ih c hc ?_⟩
    exact fun hm => h (names_subset_of_mem_children hc hm)

theorem every_withChildren_map (hP : ∀ u : Term, u.read? tuple = none → P u) (h : tuple ∉ t.names)
    {f : Term → Term} (hf : ∀ c ∈ t.children, ∀ q, f c = .param q → c = .param q)
    (hc : ∀ c ∈ t.children, (f c).Every P) : (t.withChildren (t.children.map f)).Every P := by
  have hlen : (t.children.map f).length = t.children.length := List.length_map f
  have hch := children_withChildren t hlen
  have hr : (t.withChildren (t.children.map f)).read? tuple = none :=
    read?_eq_none fun q hq => name_ne_of_param_mem_map h hf q (hch ▸ hq)
  refine every_iff.2 ⟨hP _ hr, ?_⟩
  rw [hch]
  exact List.forall_mem_map.2 hc

theorem every_replace (hP : ∀ u : Term, u.read? tuple = none → P u) (h : tuple ∉ t.names)
    {r : Term} (hr : r.Every P) (hnp : ∀ q, r ≠ .param q) (name : String) :
    (t.replace name r).Every P := by
  induction t using inductionOn with
  | step t ih =>
    rw [replace_eq]
    split
    · exact hr
    · split
      · exact every_of_not_mem_names hP h
      · exact every_withChildren_map hP h (fun c _ q => replace_eq_param (hnp q)) fun c hc =>
          ih c hc fun hm => h (names_subset_of_mem_children hc hm)

end Term

namespace Slots

variable {P : Term → Prop} {slots : Slots} {tuple : Param} {text : String}

theorem every_item (hP : ∀ u : Term, u.read? tuple.name = none → P u) {ty : Ty}
    (h : P (slots.item tuple text ty)) : (slots.item tuple text ty).Every P := by
  refine Term.every_iff.2 ⟨h, fun c hc => ?_⟩
  obtain rfl : c = .param tuple := by simpa [item, Term.children] using hc
  exact Term.every_iff.2 ⟨hP _ rfl, by simp [Term.children]⟩

theorem every_itemAs (hP : ∀ u : Term, u.read? tuple.name = none → P u) {ty : Ty}
    (h : P (slots.item tuple text (slots.typeOf text ty))) :
    (slots.itemAs tuple text ty).Every P := by
  rw [itemAs]
  split
  · rename_i hty
    exact every_item hP (hty ▸ h)
  · refine Term.every_iff.2 ⟨hP _ rfl, fun c hc => ?_⟩
    obtain rfl := List.mem_singleton.1 hc
    exact every_item hP h

theorem ty_itemAs (slots : Slots) (tuple : Param) (text : String) (ty : Ty) :
    (slots.itemAs tuple text ty).ty = ty := by
  rw [itemAs]
  split
  · rfl
  · exact Term.ty_converted _ ty

def NamesItem (slots : Slots) (tuple : Param) (u : Term) : Prop :=
  ∀ m, u.read? tuple.name = some m →
    u = .member (some (.param tuple)) m ∧ ∃ k, k < slots.length ∧ m.name = Ty.itemName k

def TypesItem (slots : Slots) (tuple : Param) (u : Term) : Prop :=
  ∀ m, u.read? tuple.name = some m →
    ∃ k, m.name = Ty.itemName k ∧ (slots.map (·.term.ty))[k]? = some m.ty

theorem namesItem_item {slot : Slot} (h : slots.slot? text = some slot) (ty : Ty) :
    slots.NamesItem tuple (slots.item tuple text ty) := by
  intro m hm
  rw [read?_item] at hm
  cases hm
  exact ⟨rfl, _, indexOf_lt_of_slot? h, rfl⟩

theorem typesItem_iff_memberType? (hn : slots.length < Digits.indexLimit) {u : Term}
    (h : slots.NamesItem tuple u) : slots.TypesItem tuple u ↔
      ∀ m, u.read? tuple.name = some m → slots.tupleType.memberType? m.name = some m.ty := by
  refine forall_congr' fun m => forall_congr' fun hm => ?_
  obtain ⟨-, k, hk, hname⟩ := h m hm
  have hty : slots.tupleType.memberType? m.name = (slots.map (·.term.ty))[k]? := by
    rw [hname]
    exact Ty.memberType?_tuple_itemName _ (by omega)
  rw [hty]
  constructor
  · intro hitem
    obtain ⟨j, hj, htj⟩ := hitem
    obtain rfl := Ty.itemName_injective (hname.symm.trans hj)
    exact htj
  · exact fun htk => ⟨k, hname, htk⟩

theorem typesItem_item_iff {slot : Slot} (h : slots.slot? text = some slot) (ty : Ty) :
    slots.TypesItem tuple (slots.item tuple text ty) ↔ slot.term.ty = ty := by
  have hk : (slots.map (·.term.ty))[slots.indexOf text]? = some slot.term.ty := by
    rw [List.getElem?_map, getElem?_indexOf h]
    rfl
  constructor
  · intro ht
    obtain ⟨k, hn, hty⟩ := ht _ (read?_item slots tuple text ty)
    obtain rfl := Ty.itemName_injective hn
    exact Option.some.inj (hk.symm.trans hty)
  · intro hty m hm
    subst hty
    rw [read?_item] at hm
    cases hm
    exact ⟨_, rfl, hk⟩

end Slots

namespace Splitter

variable {s : Splitter} {t : Term} {leaf : String → Ty → Term} {root : Term}

theorem every_graft {P : Term → Prop} {tuple : String}
    (hP : ∀ u : Term, u.read? tuple = none → P u) (ht : tuple ∉ t.names)
    (hl : ∀ text ty q, leaf text ty ≠ .param q) (hr : ∀ q, root ≠ .param q)
    (hleaf : ∀ slot ∈ s.leaves t, ∀ ty, (leaf slot.text ty).Every P)
    (hroot : (∃ p, s.CapturedAt t p) → root.Every P) : (s.graft leaf root t).Every P := by
  induction t using Term.inductionOn with
  | step t ih =>
    rw [graft_eq]
    have hpl := s.placed t
    generalize hplace : s.place t = pl at hpl
    cases hpl with
    | free _ => exact Term.every_of_not_mem_names hP ht
    | captured hm _ =>
      obtain ⟨p, hf⟩ := (Term.mentions_iff_exists_freeAt _ t).1 hm
      exact Term.every_replace hP ht (hroot ⟨p, (capturedAt_of_captured hplace).2 hf⟩) hr _
    | leaf _ _ _ _ =>
      rw [leaves_eq, hplace] at hleaf
      exact hleaf _ (List.mem_singleton.2 rfl) t.ty
    | faulty _ _ _ | deferred _ _ _ _ _ =>
      refine Term.every_withChildren_map hP ht (fun c _ q => eq_param_of_graft hl hr) fun c hc => ?_
      obtain ⟨i, hi⟩ := List.getElem?_of_mem hc
      refine ih c hc (fun hm => ht (Term.names_subset_of_mem_children hc hm)) ?_ ?_
      · exact fun slot hs => hleaf slot ((mem_leaves_of_opened hplace).2 ⟨i, c, hi, hs⟩)
      · intro hcap
        obtain ⟨p, hp⟩ := hcap
        exact hroot ⟨i :: p, (capturedAt_cons_of_opened hplace).2 ⟨c, hi, hp⟩⟩

theorem ty_graft (hl : ∀ text ty, (leaf text ty).ty = ty) (h : s.place t ≠ .captured) :
    (s.graft leaf root t).ty = t.ty := by
  rw [graft_eq]
  have hpl := s.placed t
  generalize hplace : s.place t = pl at hpl h
  cases hpl with
  | free _ => rfl
  | captured _ _ => exact absurd rfl h
  | leaf _ _ _ _ => exact hl _ _
  | faulty _ ht _ | deferred _ ht _ _ _ => exact Term.ty_withChildren ht _

theorem place_ne_captured {body : Term} {result : Split}
    (h : s.dialect.split s.clientUse (.lambda [s.root] body) = .ok result) (hn : 0 < result.arity) :
    s.place body ≠ .captured := by
  intro hp
  -- nothing but the root would be sent, and then the client keeps the selector
  have hs : s.slots body = [⟨rootText, .param s.root⟩] := by
    rw [slots, leaves_eq, hp]
    rfl
  rw [split_eq, hs] at h
  split at h
  · cases h
  · rw [if_pos (Or.inr (by simp [Slots.isBareRoot, Slots.texts]))] at h
    cases h
    simp [Split.arity, Slots.empty] at hn

theorem every_namesItem_clientBody (s : Splitter) (body : Term) :
    (s.clientBody body).Every ((s.slots body).NamesItem (s.tuple body)) := by
  have hP : ∀ u : Term, u.read? (s.tuple body).name = none →
      (s.slots body).NamesItem (s.tuple body) u := by
    intro u hu m hm
    rw [hu] at hm
    cases hm
  rw [clientBody, remainder_eq_graft]
  refine every_graft hP (s.tuple_name_not_mem_names body) (Slots.itemAs_ne_param _ _)
    (Slots.item_ne_param _ _ _ _) ?_ ?_
  · intro leaf hleaf ty
    obtain ⟨slot, hs⟩ := Slots.exists_slot?_ofList hleaf
    exact Slots.every_itemAs hP (Slots.namesItem_item hs _)
  · intro hcap
    obtain ⟨p, hp⟩ := hcap
    obtain ⟨slot, hs⟩ := Slots.exists_slot?_ofList (mem_leaves_of_capturedAt hp)
    exact Slots.every_item hP (Slots.namesItem_item hs _)

theorem every_typesItem_or_captured (s : Splitter) (body : Term) :
    (s.clientBody body).Every fun u => (s.slots body).TypesItem (s.tuple body) u ∨
      (∃ p, s.CapturedAt body p) ∧
        u = (s.slots body).item (s.tuple body) rootText s.root.ty := by
  have hP : ∀ u : Term, u.read? (s.tuple body).name = none →
      (s.slots body).TypesItem (s.tuple body) u ∨ (∃ p, s.CapturedAt body p) ∧
        u = (s.slots body).item (s.tuple body) rootText s.root.ty := by
    refine fun u hu => Or.inl fun m hm => ?_
    rw [hu] at hm
    cases hm
  rw [clientBody, remainder_eq_graft]
  refine every_graft hP (s.tuple_name_not_mem_names body) (Slots.itemAs_ne_param _ _)
    (Slots.item_ne_param _ _ _ _) ?_ ?_
  · intro leaf hleaf ty
    obtain ⟨slot, hs⟩ := Slots.exists_slot?_ofList hleaf
    refine Slots.every_itemAs hP (Or.inl ((Slots.typesItem_item_iff hs _).2 ?_))
    exact (Slots.typeOf_eq hs ty).symm
  · exact fun hc => Slots.every_item hP (Or.inr ⟨hc, rfl⟩)

theorem every_typesItem_iff (s : Splitter) (body : Term) :
    (s.clientBody body).Every ((s.slots body).TypesItem (s.tuple body)) ↔
      ((∃ p, s.CapturedAt body p) →
        ∃ slot ∈ s.slots body, slot.text = rootText ∧ slot.term.ty = s.root.ty) := by
  constructor
  · intro h hcap
    obtain ⟨p, hp⟩ := hcap
    obtain ⟨slot, hs⟩ := Slots.exists_slot?_ofList (mem_leaves_of_capturedAt hp)
    have hu : (s.clientBody body).at? p =
        some ((s.slots body).item (s.tuple body) rootText s.root.ty) := by
      rw [clientBody, remainder_eq_graft]
      exact at?_graft_of_capturedAt hp
    exact ⟨slot, Slots.mem_of_slot? hs, Slots.text_of_slot? hs,
      (Slots.typesItem_item_iff hs _).1 (h p _ hu)⟩
  · intro h p u hu
    rcases every_typesItem_or_captured s body p u hu with ht | ⟨hc, rfl⟩
    · exact ht
    · obtain ⟨slot, hs, ht, hty⟩ := h hc
      have hslot := Slots.slot?_of_mem (Slots.nodup_texts_ofList _) hs
      exact (Slots.typesItem_item_iff (ht ▸ hslot) _).2 hty

/-- Every read of the tuple in a split's client names an item of the tuple, and the client's body has
the type of the selector's body. Only the reads of a captured root may be typed wrongly, and none is
exactly when the slot of the root has the declared type. -/
theorem client_typed_iff_root_slot_typed {s : Splitter} {body : Term} {result : Split}
    (h : s.dialect.split s.clientUse (.lambda [s.root] body) = .ok result) (hn : 0 < result.arity) :
    ∃ tuple client, result.client = .lambda [tuple] client ∧
      tuple.ty = .tuple (result.slots.map (·.term.ty)) ∧ client.ty = body.ty ∧
      client.Every (result.slots.NamesItem tuple) ∧
      (client.Every fun u => result.slots.TypesItem tuple u ∨ (∃ p, s.CapturedAt body p) ∧
        u = result.slots.item tuple rootText s.root.ty) ∧
      (client.Every (result.slots.TypesItem tuple) ↔ ((∃ p, s.CapturedAt body p) →
        ∃ slot ∈ result.slots, slot.text = rootText ∧ slot.term.ty = s.root.ty)) ∧
      (result.arity < Digits.indexLimit → (client.Every (result.slots.TypesItem tuple) ↔
        client.Every fun u => ∀ m, u.read? tuple.name = some m →
          tuple.ty.memberType? m.name = some m.ty)) := by
  have hty : (s.clientBody body).ty = body.ty := by
    rw [clientBody, remainder_eq_graft]
    exact ty_graft (Slots.ty_itemAs _ _) (place_ne_captured h hn)
  obtain rfl := eq_of_split_of_arity_pos h hn
  have hnames := every_namesItem_clientBody s body
  refine ⟨s.tuple body, s.clientBody body, rfl, rfl, hty, hnames, every_typesItem_or_captured s body,
    every_typesItem_iff s body, fun hlt => ?_⟩
  exact forall_congr' fun p => forall_congr' fun u => forall_congr' fun hu =>
    Slots.typesItem_iff_memberType? hlt (hnames p u hu)

theorem client_typed_iff_root_slot_typed_personSummary :
    ∃ result, Dialect.verbatim.split .allowed (.lambda [person] personSummary) = .ok result ∧
      0 < result.arity ∧ ∃ tuple client, result.client = .lambda [tuple] client ∧
        tuple.ty = .tuple (result.slots.map (·.term.ty)) ∧ client.ty = personSummary.ty ∧
        client.Every (result.slots.NamesItem tuple) ∧
        (client.Every fun u => result.slots.TypesItem tuple u ∨
          (∃ p, (⟨.verbatim, .allowed, person⟩ : Splitter).CapturedAt personSummary p) ∧
            u = result.slots.item tuple rootText person.ty) ∧
        (client.Every (result.slots.TypesItem tuple) ↔
          ((∃ p, (⟨.verbatim, .allowed, person⟩ : Splitter).CapturedAt personSummary p) →
            ∃ slot ∈ result.slots, slot.text = rootText ∧ slot.term.ty = person.ty)) ∧
        (result.arity < Digits.indexLimit → (client.Every (result.slots.TypesItem tuple) ↔
          client.Every fun u => ∀ m, u.read? tuple.name = some m →
            tuple.ty.memberType? m.name = some m.ty)) := by
  obtain ⟨result, h, hn⟩ := exists_split_personSummary
  exact ⟨result, h, hn,
    client_typed_iff_root_slot_typed (s := ⟨.verbatim, .allowed, person⟩) h hn⟩

/-- The root, as a value that may be missing, takes the slot of the root before a lambda captures
it. -/
def liftedPerson : Term :=
  .tuple [(Term.param person).converted (.nullable person.ty), personName,
    .lambda [⟨"o", .object⟩] (.param person)]

def liftedTuple : Param := ⟨"t", .tuple [.nullable person.ty, .scalar .string]⟩

def liftedItem (name : String) (ty : Ty) : Term :=
  .member (some (.param liftedTuple)) ⟨"Tuple", name, ty⟩

def liftedSplit : Split where
  slots := [⟨"this", (Term.param person).converted (.nullable person.ty)⟩, ⟨"Name", personName⟩]
  serverText? := some "this as Item1,Name as Item2"
  client := .lambda [liftedTuple] (liftedPerson.withChildren
    [liftedItem "Item1" (.nullable person.ty), liftedItem "Item2" (.scalar .string),
      .lambda [⟨"o", .object⟩] (liftedItem "Item1" person.ty)])
  reasons := []

/-- The captured root is read with the declared type, which is not the type of the first item. -/
theorem captured_root_read_mistyped :
    (liftedPerson.Every fun u => ∀ q, u = .param q → q.name = person.name → q = person) ∧
      Dialect.verbatim.split .allowed (.lambda [person] liftedPerson) = .ok liftedSplit ∧
      liftedSplit.client.at? [0, 2, 0] = some (liftedItem "Item1" person.ty) ∧
      liftedTuple.ty.memberType? "Item1" = some (.nullable person.ty) ∧
      Ty.nullable person.ty ≠ person.ty := by
  have hroot : (Term.param person).Every fun u =>
      ∀ q, u = .param q → q.name = person.name → q = person :=
    Term.every_iff.2 ⟨fun q hq _ => (Term.param.inj hq).symm, by simp [Term.children]⟩
  have hover : ∀ t : Term, t.children = [.param person] → (∀ q, t ≠ .param q) →
      t.Every fun u => ∀ q, u = .param q → q.name = person.name → q = person := by
    intro t ht hn
    refine Term.every_iff.2 ⟨fun q hq => absurd hq (hn q), ?_⟩
    rw [ht]
    exact List.forall_mem_singleton.2 hroot
  have hsplit : Dialect.verbatim.split .allowed (.lambda [person] liftedPerson) = .ok liftedSplit := by
    rw [split_eq ⟨.verbatim, .allowed, person⟩]
    cbv
  refine ⟨Term.every_iff.2 ⟨by simp [liftedPerson, Term.tuple], ?_⟩, hsplit, rfl,
    Ty.memberType?_tuple_itemName (k := 0) _ (by decide), by decide⟩
  simp only [liftedPerson, Term.children_tuple, List.forall_mem_cons]
  exact ⟨hover _ rfl (by simp [Term.converted]),
    hover _ rfl (by simp [personName, Term.property]), hover _ rfl (by simp), by simp⟩

end Splitter
end RemoteQuery
