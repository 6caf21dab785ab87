import RemoteQuery.Proofs.Wire.NodeFault

/-!
# Rendering reports single causes

A term without a text fails with the fault of one node, which is a single cause. Causes are only put
together by a split, so the fault made of several causes lists exactly those causes.
-/

namespace RemoteQuery

def Fault.IsSingle (f : Fault) : Prop := f.causes = [f]

theorem Fault.causes_ofCauses_of_isSingle {cs : List Fault} (h : ∀ c ∈ cs, c.IsSingle) :
    (ofCauses cs).causes = cs := by
  match cs with
  | [] => rfl
  | [c] => exact h c (List.mem_singleton.2 rfl)
  | _ :: _ :: _ => rfl

theorem Mapping.isSingle_of_fault? {m : Mapping} {count : Nat} {f : Fault}
    (h : m.fault? count = some f) : f.IsSingle := by
  obtain ⟨why, -, rfl⟩ := Option.map_eq_some_iff.1 h
  rfl

namespace Dialect

variable {d : Dialect} {root : Option String} {t : Term} {f : Fault}

theorem isSingle_of_guarded {p : Prop} [Decidable p] {why : Fault}
    (h : (if p then none else some why) = some f) (hw : why.IsSingle) : f.IsSingle := by
  obtain ⟨-, he⟩ := Option.ite_none_left_eq_some.1 h
  exact Option.some.inj he ▸ hw

theorem isSingle_of_nodeFault? (h : d.nodeFault? t = some f) : f.IsSingle := by
  cases t with
  | binary op left right ty => exact isSingle_of_guarded h rfl
  | unary op operand ty =>
    cases op with
    | negate =>
      cases h
      rfl
    | not | convert | typeAs => cases h
  | member target m =>
    rw [nodeFault?] at h
    split at h
    · exact Mapping.isSingle_of_fault? h
    · exact isSingle_of_guarded h rfl
  | call target method args =>
    rw [nodeFault?] at h
    split at h
    · cases h
    · exact isSingle_of_guarded h rfl
    · split at h
      · exact Mapping.isSingle_of_fault? h
      · cases h
        rfl
  | lambda params body => exact isSingle_of_guarded h rfl
  | construct names args ty | listInit rows ty =>
    cases h
    rfl
  | constant value ty | typeTest target tested | conditional test onTrue onFalse ty | param p
  | array elements ty => cases h

theorem isSingle_of_render (h : d.render root t = .error f) : f.IsSingle := by
  obtain ⟨p, u, -, hu⟩ := exists_nodeFault?_of_render_eq_error h
  exact isSingle_of_nodeFault? hu

end Dialect
end RemoteQuery
