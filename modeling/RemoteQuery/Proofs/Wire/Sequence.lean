import RemoteQuery.Proofs.Wire.Nested

/-!
# Sequences as constants and as lists of terms

A sequence is written in one of two ways, as one constant or as a list of constants. Only a constant of
the list is written by its type, so an integer typed as an enumeration is a symbol there and a number in
the sequence. The texts are the same exactly when there is no such integer.
-/

namespace RemoteQuery

open Nesting

variable {ty element : Ty} {vs : List Literal}

/-- An integer as the value of the enumeration that it is typed as. -/
def Literal.asMember (ty : Ty) (v : Literal) : Literal :=
  match v, ty.underlyingEnum? with
  | .int raw, some e => .enum e raw
  | v, _ => v

theorem Literal.text_asMember (ty : Ty) (v : Literal) : (v.asMember ty).text = constantText v ty := by
  unfold asMember constantText
  cases ty.underlyingEnum? with
  | none => cases v <;> rfl
  | some e => cases v <;> rfl

theorem text_int_ne_quote (raw : Int64) (s : String) : (Literal.int raw).text ≠ quote s := by
  intro h
  have hquote : '\'' ∈ (Literal.int raw).text.toList := by
    rw [h, quote, String.toList_ofList]
    exact List.mem_cons_self
  exact absurd (Literal.isWordChar_of_mem_text rfl _ hquote) (by decide)

theorem text_eq_constantText_iff (v : Literal) (ty : Ty) :
    v.text = constantText v ty ↔ (ty.underlyingEnum?.isSome → ∀ raw, v ≠ .int raw) := by
  unfold constantText
  split
  · rename_i raw e he
    constructor
    · intro h
      exact absurd h (text_int_ne_quote raw (e.format raw))
    · intro h
      exact absurd rfl (h (by rw [he]; rfl) raw)
  · rename_i hne
    refine ⟨fun _ hsome raw hv => ?_, fun _ => rfl⟩
    obtain ⟨e, he⟩ := Option.isSome_iff_exists.1 hsome
    exact hne raw e hv he

theorem Nesting.intercalate_map_inj {α : Type} {l : List α} {f g : α → List Char}
    (hf : ∀ a ∈ l, WellNested false (f a)) (hg : ∀ a ∈ l, WellNested false (g a)) :
    [','].intercalate (l.map f) = [','].intercalate (l.map g) ↔ ∀ a ∈ l, f a = g a := by
  constructor
  · intro h
    cases l with
    | nil => simp
    | cons a l =>
      -- a comma before each of the lists makes the first items like the others
      rw [List.map_cons, List.map_cons, intercalate_cons, intercalate_cons] at h
      have hall : (a :: l).map f = (a :: l).map g :=
        flatMap_inj (by simpa using hf) (by simpa using hg) (congrArg (',' :: ·) h)
      exact List.map_inj_left.1 hall
  · intro h
    rw [List.map_congr_left h]

namespace Dialect

variable (d : Dialect) (root : Option String)

theorem text_sequence (vs : List Literal) (element : Ty) :
    d.text root (.constant (.sequence vs) (.sequence element)) =
      .ok ("[" ++ ",".intercalate (vs.map Literal.text) ++ "]") := by
  rw [text, render, constantText, Literal.text, Literal.texts_eq_map]
  · rfl
  · rintro raw e hv -
    cases hv

theorem text_constants (vs : List Literal) (element ty : Ty) :
    d.text root (.array (vs.map (.constant · element)) ty) =
      .ok ("[" ++ ",".intercalate (vs.map (constantText · element)) ++ "]") := by
  have hitems : ((vs.map (.constant · element)).mapM fun t => d.render root t) =
      .ok (vs.map fun v => .plain (constantText v element)) := by
    rw [List.mapM_map]
    have hitem : ((fun t => d.render root t) ∘ fun v => Term.constant v element) =
        fun v => .ok (.plain (constantText v element)) := by
      funext v
      rw [Function.comp_apply, render]
    rw [hitem]
    exact List.mapM_pure
  rw [text, render, hitems]
  simp [bind, Except.bind, pure, Except.pure, Except.map, Rendered.ofList, Rendered.plain,
    Function.comp_def]

/-- The list of the constants is written as the sequence of the same values, but for integers that the
type makes members of an enumeration. So a sequence of integers typed as an enumeration, and no other
one, has a text of its own as a constant. -/
theorem sequence_text_eq_array_text_iff (vs : List Literal) (element ty : Ty) :
    ∃ s a, d.text root (.constant (.sequence vs) (.sequence element)) = .ok s ∧
      d.text root (.array (vs.map (.constant · element)) ty) = .ok a ∧
      d.text root (.constant (.sequence (vs.map (Literal.asMember element))) (.sequence element)) = .ok a ∧
      (s = a ↔ (element.underlyingEnum?.isSome → ∀ raw, .int raw ∉ vs)) := by
  refine ⟨_, _, text_sequence d root vs element, text_constants d root vs element ty, ?_, ?_⟩
  · rw [text_sequence, List.map_map]
    simp only [Function.comp_def, Literal.text_asMember]
  · have hbrackets : ∀ {s a : String}, "[" ++ s ++ "]" = "[" ++ a ++ "]" ↔ s = a := by
      intro s a
      rw [String.append_left_inj, String.append_right_inj]
    have hitems : ∀ f : Literal → String, (",".intercalate (vs.map f)).toList =
        [','].intercalate (vs.map fun v => (f v).toList) := by
      intro f
      rw [String.toList_intercalate, List.map_map]
      rfl
    rw [hbrackets, ← String.toList_inj, hitems, hitems,
      intercalate_map_inj (fun v _ => v.wellNested_text false) fun v _ => wellNested_constantText v element]
    simp only [String.toList_inj, text_eq_constantText_iff]
    constructor
    · intro h hsome raw hraw
      exact h _ hraw hsome raw rfl
    · rintro h v hv hsome raw rfl
      exact h hsome raw hv

def season : Enumeration := ⟨"Season", .int32, [("Spring", 0), ("Summer", 1)], false⟩

theorem sequence_of_integers_without_symbols :
    Dialect.standard.text (some "x") (.constant (.sequence [.int 1]) (.sequence (.enum season))) = .ok "[1]" ∧
      Dialect.standard.text (some "x") (.array ([.int 1].map (.constant · (.enum season)))
        (.sequence (.enum season))) = .ok "['Summer']" := by
  constructor <;> decide +kernel

end Dialect
end RemoteQuery
