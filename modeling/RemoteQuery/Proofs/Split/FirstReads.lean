import Mathlib.Data.List.Induction
import RemoteQuery.Proofs.Split.Restoration

/-!
# The order of the client's reads

Walking over the client's body, each node before its children and those from left to right, the items
of the tuple are first met in the order of the slots, and none is missed. A leaf is read once where it
stood; a captured root is read at least once, because its lambda mentions the root. So the reads are
the leaves of the walk with some of them repeated on the spot, and the slots are the leaves without
repetitions.
-/

namespace RemoteQuery

section Firsts

variable {α β : Type} [BEq α] [LawfulBEq α] [BEq β] [LawfulBEq β]

theorem eraseDups_filter (p : α → Bool) (l : List α) :
    (l.filter p).eraseDups = l.eraseDups.filter p := by
  match l with
  | [] => rfl
  | a :: l =>
    have hlen : (l.filter fun b => !b == a).length ≤ l.length := List.length_filter_le _ l
    have ih := eraseDups_filter p (l.filter fun b => !b == a)
    rw [List.eraseDups_cons]
    by_cases ha : p a = true
    · have hcomm : (l.filter p).filter (fun b => !b == a) = (l.filter fun b => !b == a).filter p := by
        rw [List.filter_filter, List.filter_filter]
        exact List.filter_congr fun b _ => Bool.and_comm _ _
      rw [List.filter_cons_of_pos ha, List.filter_cons_of_pos ha, List.eraseDups_cons, ← ih, hcomm]
    · have hskip : (l.filter fun b => !b == a).filter p = l.filter p := by
        rw [List.filter_filter]
        apply List.filter_congr
        intro b _
        by_cases hb : b = a
        · subst hb
          simpa using ha
        · simp [hb]
      rw [List.filter_cons_of_neg ha, List.filter_cons_of_neg ha, ← ih, hskip]
termination_by l.length
decreasing_by
  rw [List.length_cons]
  omega

theorem eraseDups_append_eq (l m : List α) :
    (l ++ m).eraseDups = l.eraseDups ++ m.eraseDups.filter fun a => !l.eraseDups.elem a := by
  have hmem : ∀ a, l.elem a = l.eraseDups.elem a := by
    intro a
    rw [Bool.eq_iff_iff, List.elem_eq_mem, List.elem_eq_mem]
    simp
  rw [List.eraseDups_append, List.removeAll, eraseDups_filter]
  simp only [hmem]

theorem eraseDups_flatMap_congr {γ : Type} {l : List γ} {f g : γ → List α}
    (h : ∀ a ∈ l, (f a).eraseDups = (g a).eraseDups) :
    (l.flatMap f).eraseDups = (l.flatMap g).eraseDups := by
  induction l with
  | nil => rfl
  | cons a l ih =>
    have hl := ih fun b hb => h b (List.mem_cons_of_mem a hb)
    rw [List.flatMap_cons, List.flatMap_cons, eraseDups_append_eq, eraseDups_append_eq,
      h a List.mem_cons_self, hl]

theorem eraseDups_map {f : α → β} {l : List α} (h : ∀ a ∈ l, ∀ b ∈ l, f a = f b → a = b) :
    (l.map f).eraseDups = l.eraseDups.map f := by
  match l with
  | [] => rfl
  | a :: l =>
    have hlen : (l.filter fun b => !b == a).length ≤ l.length := List.length_filter_le _ l
    have hsub : ∀ b ∈ l.filter fun b => !b == a, b ∈ a :: l := fun b hb =>
      List.mem_cons_of_mem a (List.mem_filter.1 hb).1
    have ih := eraseDups_map fun b hb c hc => h b (hsub b hb) c (hsub c hc)
    have hfilter : (l.map f).filter (fun b => !b == f a) = (l.filter fun b => !b == a).map f := by
      rw [List.filter_map]
      apply congrArg
      apply List.filter_congr
      intro b hb
      have hab : f b = f a ↔ b = a :=
        ⟨h b (List.mem_cons_of_mem a hb) a List.mem_cons_self, congrArg f⟩
      rw [Function.comp_apply, Bool.not_inj_iff, Bool.eq_iff_iff, beq_iff_eq, beq_iff_eq, hab]
    rw [List.map_cons, List.eraseDups_cons, List.eraseDups_cons, List.map_cons, hfilter, ih]
termination_by l.length
decreasing_by
  rw [List.length_cons]
  omega

theorem eraseDups_of_forall_eq {l : List α} {a : α} (ha : a ∈ l) (h : ∀ b ∈ l, b = a) :
    l.eraseDups = [a] := by
  cases l with
  | nil => cases ha
  | cons b l =>
    obtain rfl := h b List.mem_cons_self
    have hl : l.filter (fun c => !c == b) = [] := by
      rw [List.filter_eq_nil_iff]
      intro c hc
      simp [h c (List.mem_cons_of_mem b hc)]
    rw [List.eraseDups_cons, hl]
    rfl

end Firsts

namespace Term

variable {tuple : String} {t : Term}

def preorder (t : Term) : List Term := t :: t.children.attach.flatMap fun c => preorder c.1
termination_by sizeOf t
decreasing_by exact sizeOf_lt_of_mem_children c.2

theorem preorder_eq (t : Term) : t.preorder = t :: t.children.flatMap preorder := by
  rw [preorder]; simp

/-- The names of the members read of the tuple, in the order of the walk. -/
def readNames (tuple : String) (t : Term) : List String :=
  t.preorder.filterMap fun u => (u.read? tuple).map (·.name)

theorem readNames_eq (tuple : String) (t : Term) : t.readNames tuple =
    ((t.read? tuple).map (·.name)).toList ++ t.children.flatMap (readNames tuple) := by
  rw [readNames, preorder_eq, List.filterMap_cons, List.filterMap_flatMap]
  cases (t.read? tuple).map (·.name) <;> rfl

theorem readNames_of_not_mem_names (h : tuple ∉ t.names) : t.readNames tuple = [] := by
  induction t using inductionOn with
  | step t ih =>
    rw [readNames_eq, read?_of_not_mem_names h]
    have hc : t.children.flatMap (readNames tuple) = [] := by
      rw [List.flatMap_eq_nil_iff]
      exact fun c hc => ih c hc fun hm => h (names_subset_of_mem_children hc hm)
    rw [hc]
    rfl

theorem readNames_withChildren_map (h : tuple ∉ t.names) {f : Term → Term}
    (hf : ∀ c ∈ t.children, ∀ q, f c = .param q → c = .param q) :
    (t.withChildren (t.children.map f)).readNames tuple =
      t.children.flatMap fun c => (f c).readNames tuple := by
  have hlen : (t.children.map f).length = t.children.length := List.length_map f
  have hch := children_withChildren t hlen
  have hr : (t.withChildren (t.children.map f)).read? tuple = none :=
    read?_eq_none fun q hq => name_ne_of_param_mem_map h hf q (hch ▸ hq)
  rw [readNames_eq, hr, hch, List.flatMap_map]
  rfl

theorem readNames_replace (h : tuple ∉ t.names) {r : Term} {read : String}
    (hr : r.readNames tuple = [read]) (hnp : ∀ q, r ≠ .param q) (name : String) :
    (∀ n ∈ (t.replace name r).readNames tuple, n = read) ∧
      (t.mentions name = true → read ∈ (t.replace name r).readNames tuple) := by
  induction t using inductionOn with
  | step t ih =>
    have hsub : ∀ c ∈ t.children, tuple ∉ c.names := fun c hc hm =>
      h (names_subset_of_mem_children hc hm)
    rw [replace_eq, mentions_iff]
    split
    · simp [hr]
    · rename_i hp
      split
      · rename_i hh
        rw [readNames_of_not_mem_names h]
        simp [hp, hh]
      · rw [readNames_withChildren_map h fun c _ q => replace_eq_param (hnp q)]
        constructor
        · intro n hn
          obtain ⟨c, hc, hn⟩ := List.mem_flatMap.1 hn
          exact (ih c hc (hsub c hc)).1 n hn
        · intro hm
          obtain ⟨-, c, hc, hm⟩ := hm.resolve_left hp
          exact List.mem_flatMap.2 ⟨c, hc, (ih c hc (hsub c hc)).2 hm⟩

end Term

namespace Slots

theorem texts_ofList (leaves : List Slot) :
    (ofList leaves).texts = (leaves.map (·.text)).eraseDups := by
  induction leaves using List.reverseRecOn with
  | nil => rfl
  | append_singleton leaves leaf ih =>
    have hlast : ofList (leaves ++ [leaf]) = (ofList leaves).insert leaf := by
      rw [ofList, ofList, List.foldl_append]
      rfl
    rw [hlast, texts_insert, List.map_append, eraseDups_append_eq, ← ih]
    by_cases hm : leaf.text ∈ (ofList leaves).texts
    · simp [hm, List.eraseDups_cons]
    · simp [hm, List.eraseDups_cons]

theorem map_indexOf_texts {slots : Slots} (h : slots.texts.Nodup) :
    slots.texts.map slots.indexOf = List.range slots.length := by
  induction slots with
  | nil => rfl
  | cons first slots ih =>
    obtain ⟨hf, hn⟩ : first.text ∉ texts slots ∧ (texts slots).Nodup := List.nodup_cons.1 h
    have hrest : (texts slots).map (indexOf (first :: slots)) =
        ((texts slots).map (indexOf slots)).map Nat.succ := by
      rw [List.map_map]
      apply List.map_congr_left
      intro text ht
      have hne : (first.text == text) = false := beq_eq_false_iff_ne.2 fun he => hf (he ▸ ht)
      simp only [Function.comp_apply, indexOf, List.findIdx_cons, hne, cond_false]
    have hfirst : indexOf (first :: slots) first.text = 0 := by
      simp [indexOf, List.findIdx_cons]
    calc (texts (first :: slots)).map (indexOf (first :: slots))
        = 0 :: ((texts slots).map (indexOf slots)).map Nat.succ := by
          rw [← hrest, ← hfirst]
          rfl
      _ = List.range (slots.length + 1) := by rw [ih hn, List.range_succ_eq_map]

theorem readNames_item (slots : Slots) (tuple : Param) (text : String) (ty : Ty) :
    (slots.item tuple text ty).readNames tuple.name = [Ty.itemName (slots.indexOf text)] := by
  have hp : (Term.param tuple).readNames tuple.name = [] := by
    rw [Term.readNames_eq]
    rfl
  rw [Term.readNames_eq, read?_item]
  simp [item, Term.children, hp]

theorem readNames_itemAs (slots : Slots) (tuple : Param) (text : String) (ty : Ty) :
    (slots.itemAs tuple text ty).readNames tuple.name = [Ty.itemName (slots.indexOf text)] := by
  rw [itemAs]
  split
  · exact readNames_item slots tuple text ty
  · rw [Term.readNames_eq]
    simp [Term.converted, Term.read?, Term.children, readNames_item]

end Slots

namespace Splitter

variable {s : Splitter} {slots : Slots} {tuple : Param} {t : Term}

theorem eraseDups_readNames_remainder (ht : tuple.name ∉ t.names) :
    ((s.remainder slots tuple t).readNames tuple.name).eraseDups =
      ((s.leaves t).map fun leaf => Ty.itemName (slots.indexOf leaf.text)).eraseDups := by
  induction t using Term.inductionOn with
  | step t ih =>
    rw [remainder_eq, leaves_eq]
    have hpl := s.placed t
    generalize hplace : s.place t = pl at hpl
    cases hpl with
    | free _ =>
      dsimp only
      rw [Term.readNames_of_not_mem_names ht]
      rfl
    | captured hm _ =>
      obtain ⟨hall, hread⟩ := Term.readNames_replace ht
        (slots.readNames_item tuple rootText s.root.ty) (slots.item_ne_param tuple _ _) s.root.name
      exact eraseDups_of_forall_eq (hread hm) hall
    | leaf _ _ _ _ =>
      dsimp only
      rw [slots.readNames_itemAs]
      rfl
    | faulty _ _ _ | deferred _ _ _ _ _ =>
      dsimp only
      rw [Term.readNames_withChildren_map ht fun _ _ _ => eq_param_of_remainder, List.map_flatMap]
      apply eraseDups_flatMap_congr
      exact fun c hc => ih c hc fun hm => ht (Term.names_subset_of_mem_children hc hm)

theorem eraseDups_readNames_clientBody (s : Splitter) (body : Term) :
    ((s.clientBody body).readNames (s.tuple body).name).eraseDups =
      (List.range (s.slots body).length).map Ty.itemName := by
  have hnodup : (s.slots body).texts.Nodup := Slots.nodup_texts_ofList _
  have htexts : ((s.leaves body).map (·.text)).eraseDups = (s.slots body).texts :=
    (Slots.texts_ofList _).symm
  have hinj : ∀ a ∈ (s.leaves body).map (·.text), ∀ b ∈ (s.leaves body).map (·.text),
      Ty.itemName ((s.slots body).indexOf a) = Ty.itemName ((s.slots body).indexOf b) → a = b := by
    intro a ha b hb hab
    obtain ⟨leaf, hl, rfl⟩ := List.mem_map.1 ha
    obtain ⟨leaf', hl', rfl⟩ := List.mem_map.1 hb
    exact Slots.text_eq_of_indexOf_eq hl hl' (Ty.itemName_injective hab)
  calc ((s.clientBody body).readNames (s.tuple body).name).eraseDups
      = (((s.leaves body).map (·.text)).map fun text =>
          Ty.itemName ((s.slots body).indexOf text)).eraseDups := by
        rw [clientBody, eraseDups_readNames_remainder (s.tuple_name_not_mem_names body), List.map_map]
        rfl
    _ = ((s.slots body).texts.map (s.slots body).indexOf).map Ty.itemName := by
        rw [eraseDups_map hinj, htexts, List.map_map]
        rfl
    _ = (List.range (s.slots body).length).map Ty.itemName := by
        rw [Slots.map_indexOf_texts hnodup]

end Splitter
end RemoteQuery
