import RemoteQuery.Proofs.Term.Substitution
import RemoteQuery.Ty.Names

/-!
# Inlining the items of a tuple

A lambda over a tuple reads the tuple's items by their names. Inlining puts a term in place of every
such read. A term in which the tuple's name does not occur stays as it is, and reads that were
substituted for a name are inlined to the term itself.
-/

namespace RemoteQuery

namespace Ty

theorem toList_itemName (k : Nat) :
    (itemName k).toList = ['I', 't', 'e', 'm'] ++ Digits.ofNat (k + 1) := by
  rw [itemName, String.toList_append]
  exact congrArg _ String.toList_ofList

theorem itemName_injective {j k : Nat} (h : itemName j = itemName k) : j = k := by
  have hl := congrArg String.toList h
  rw [toList_itemName, toList_itemName] at hl
  have hd := Digits.ofNat_injective (List.append_cancel_left hl)
  omega

theorem index?_ofNat {n : Nat} (h : n < Digits.indexLimit) :
    Digits.index? (Digits.ofNat n) = some n := by
  have hplus : ∀ rest, Digits.ofNat n ≠ '+' :: rest := by
    intro rest he
    have hd : ('+' : Char).isDigit = true :=
      Digits.isDigit_of_mem_ofNat (n := n) (by rw [he]; exact List.mem_cons_self)
    revert hd
    decide
  rw [Digits.index?, Digits.toNat?_ofNat]
  · simp [h]
  · exact hplus

theorem memberType?_tuple_itemName (tys : List Ty) {k : Nat} (h : k + 1 < Digits.indexLimit) :
    (Ty.tuple tys).memberType? (itemName k) = tys[k]? := by
  have hi : itemIndex? (itemName k) = some k := by
    simp [itemIndex?, toList_itemName, index?_ofNat h]
  rw [memberType?, hi, Option.bind_some]

end Ty

namespace Term

def read? (tuple : String) : Term → Option Member
  | .member (some (.param q)) m => if q.name == tuple then some m else none
  | _ => none

def itemNamed? (items : List Term) (name : String) : Option Term :=
  ((List.range items.length).find? fun k => Ty.itemName k == name).bind (items[·]?)

theorem itemNamed?_itemName (items : List Term) (k : Nat) :
    itemNamed? items (Ty.itemName k) = items[k]? := by
  rw [itemNamed?]
  by_cases hk : k < items.length
  · have hf : (List.range items.length).find? (fun j => Ty.itemName j == Ty.itemName k) = some k :=
      List.find?_range_eq_some.2 ⟨by simp, by simpa using hk, fun j hj => by
        have hne : Ty.itemName j ≠ Ty.itemName k := fun h => by
          have := Ty.itemName_injective h
          omega
        simpa using hne⟩
    rw [hf, Option.bind_some]
  · rw [List.getElem?_eq_none (by omega), Option.bind_eq_none_iff]
    intro j hj
    obtain ⟨he, hm, -⟩ := List.find?_range_eq_some.1 hj
    have := Ty.itemName_injective (by simpa using he)
    have : j < items.length := by simpa using hm
    omega

/-- Puts the items of a tuple in place of the reads of the parameter that holds it. -/
def inline (tuple : String) (items : List Term) (t : Term) : Term :=
  match t.read? tuple with
  | some m => (itemNamed? items m.name).getD t
  | none =>
    if t.hides tuple then t
    else t.withChildren (t.children.attach.map fun c => inline tuple items c.1)
termination_by sizeOf t
decreasing_by exact sizeOf_lt_of_mem_children c.2

theorem inline_eq (tuple : String) (items : List Term) (t : Term) :
    t.inline tuple items = match t.read? tuple with
      | some m => (itemNamed? items m.name).getD t
      | none => if t.hides tuple then t else t.withChildren (t.children.map (inline tuple items)) := by
  rw [inline]; simp

theorem inline_of_read? {tuple : String} {t : Term} {m : Member} (h : t.read? tuple = some m)
    {items : List Term} {item : Term} (hi : itemNamed? items m.name = some item) :
    t.inline tuple items = item := by
  rw [inline_eq, h]
  simp [hi]

theorem read?_eq_some {tuple : String} {t : Term} {m : Member} (h : t.read? tuple = some m) :
    ∃ q : Param, t = .member (some (.param q)) m ∧ q.name = tuple := by
  unfold read? at h
  split at h
  · rename_i q m'
    split at h
    · rename_i hq
      cases h
      exact ⟨q, rfl, by simpa using hq⟩
    · cases h
  · cases h

theorem read?_eq_none {tuple : String} {t : Term}
    (h : ∀ q : Param, .param q ∈ t.children → q.name ≠ tuple) : t.read? tuple = none := by
  cases hr : t.read? tuple with
  | none => rfl
  | some m =>
    obtain ⟨q, rfl, hq⟩ := read?_eq_some hr
    exact absurd hq (h q (by simp [children]))

theorem read?_of_not_mem_names {tuple : String} {t : Term} (h : tuple ∉ t.names) :
    t.read? tuple = none :=
  read?_eq_none fun q hq he => h (names_subset_of_mem_children hq (he ▸ name_mem_names_param q))

theorem name_ne_of_param_mem_map {tuple : String} {t : Term} (h : tuple ∉ t.names)
    {f : Term → Term} (hf : ∀ c ∈ t.children, ∀ q, f c = .param q → c = .param q) (q : Param)
    (hq : .param q ∈ t.children.map f) : q.name ≠ tuple := by
  intro he
  subst he
  obtain ⟨c, hc, hcq⟩ := List.mem_map.1 hq
  obtain rfl := hf c hc q hcq
  exact h (names_subset_of_mem_children hc (name_mem_names_param q))

theorem inline_of_not_mem_names {tuple : String} {t : Term} (h : tuple ∉ t.names)
    (items : List Term) : t.inline tuple items = t := by
  induction t using inductionOn with
  | step t ih =>
    have hchildren : ∀ c ∈ t.children, c.inline tuple items = c :=
      fun c hc => ih c hc fun hm => h (names_subset_of_mem_children hc hm)
    rw [inline_eq, read?_of_not_mem_names h, withChildren_map_eq_self t hchildren]
    exact ite_self t

theorem regroup_regroup {α β γ : Type} (rows : List (List α)) (bs : List β) (cs : List γ)
    (h : bs.length = rows.flatten.length) : regroup (regroup rows bs) cs = regroup rows cs := by
  induction rows generalizing bs cs with
  | nil => rfl
  | cons row rows ih =>
    rw [List.flatten_cons, List.length_append] at h
    have hrow : (bs.take row.length).length = row.length := by
      rw [List.length_take]
      omega
    rw [regroup, regroup, regroup, hrow, ih _ _ (by rw [List.length_drop]; omega)]

theorem withChildren_withChildren (t : Term) {cs ds : List Term}
    (hc : cs.length = t.children.length) (hd : ds.length = t.children.length) :
    (t.withChildren cs).withChildren ds = t.withChildren ds := by
  cases t with
  | binary op l r ty => match cs, ds, hc, hd with | [_, _], [_, _], _, _ => rfl
  | unary op o ty => match cs, ds, hc, hd with | [_], [_], _, _ => rfl
  | member target m => cases target with
    | none => match cs, ds, hc, hd with | [], [], _, _ => rfl
    | some t => match cs, ds, hc, hd with | [_], [_], _, _ => rfl
  | constant v ty => match cs, ds, hc, hd with | [], [], _, _ => rfl
  | call target m args => cases target with
    | none => rfl
    | some t => match cs, ds, hc, hd with | _ :: _, _ :: _, _, _ => rfl
  | typeTest t ty => match cs, ds, hc, hd with | [_], [_], _, _ => rfl
  | lambda ps b => match cs, ds, hc, hd with | [_], [_], _, _ => rfl
  | conditional a b c ty => match cs, ds, hc, hd with | [_, _, _], [_, _, _], _, _ => rfl
  | param p => match cs, ds, hc, hd with | [], [], _, _ => rfl
  | array es ty => rfl
  | construct ns as ty => rfl
  | listInit rows ty => exact congrArg (listInit · ty) (regroup_regroup rows cs ds hc)

theorem inline_withChildren {tuple : String} {t : Term} {cs : List Term}
    (hlen : cs.length = t.children.length) (hh : t.hides tuple = false)
    (hcs : ∀ q : Param, .param q ∈ cs → q.name ≠ tuple) (items : List Term) :
    (t.withChildren cs).inline tuple items = t.withChildren (cs.map (inline tuple items)) := by
  have hch := children_withChildren t hlen
  have hr : (t.withChildren cs).read? tuple = none := read?_eq_none (by rwa [hch])
  rw [inline_eq, hr]
  simp only [hides_withChildren, hh, hch, Bool.false_eq_true, if_false]
  exact withChildren_withChildren t hlen (by simp [hlen])

theorem inline_replace {tuple : String} {items : List Term} {t read item : Term} {m : Member}
    (hr : read.read? tuple = some m) (hi : itemNamed? items m.name = some item)
    (name : String) (ht : tuple ∉ t.names) :
    (t.replace name read).inline tuple items = t.replace name item := by
  have hnp : ∀ q : Param, read ≠ .param q := by
    intro q hq
    subst hq
    cases hr
  induction t using inductionOn with
  | step t ih =>
    rw [replace_eq t, replace_eq t]
    split
    · exact inline_of_read? hr hi
    · split
      · exact inline_of_not_mem_names ht items
      · have hh : t.hides tuple = false :=
          Bool.eq_false_iff.2 fun h => ht (mem_names_of_hides h)
        rw [inline_withChildren (by simp) hh]
        · rw [List.map_map]
          refine congrArg t.withChildren (List.map_congr_left fun c hc => ?_)
          exact ih c hc fun h => ht (names_subset_of_mem_children hc h)
        · exact name_ne_of_param_mem_map ht fun c _ q => replace_eq_param (hnp q)

end Term
end RemoteQuery
