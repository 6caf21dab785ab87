import RemoteQuery.Proofs.Wire.Operand

/-!
# Enumerations compared with integers

A value of an enumeration is written as its symbol, and conversions of it to an integer type are not
written. So an integer that it is compared with has to become a symbol as well. This is done when
peeling leaves one conversion, of the enumeration itself, and the constant has the type that this
conversion leads to. A stack of conversions that only repeat each other may be left over, and so may a
nullable type on one side; the integer is then written with its digits.
-/

namespace RemoteQuery

namespace Ty

def nullableIf (nullable : Bool) (t : Ty) : Ty := if nullable then .nullable t else t

variable {m n : Bool} {s : Scalar} {e : Enumeration}

@[simp] theorem nonNullable_nullableIf_scalar :
    (nullableIf n (.scalar s)).nonNullable = .scalar s := by
  cases n <;> rfl

@[simp] theorem nonNullable_nullableIf_enum : (nullableIf n (.enum e)).nonNullable = .enum e := by
  cases n <;> rfl

theorem nullableIf_scalar_inj : nullableIf m (.scalar s) = nullableIf n (.scalar s) ↔ m = n := by
  cases m <;> cases n <;> simp [nullableIf]

theorem nullableIf_enum_ne_scalar : nullableIf m (.enum e) ≠ nullableIf n (.scalar s) := by
  cases m <;> cases n <;> simp [nullableIf]

end Ty

namespace Operand

/-- The term under conversions to the integer type, from the outermost one on; each entry tells whether
the conversion is to the nullable type. -/
def convertedBy (s : Scalar) (t : Term) : List Bool → Term
  | [] => t
  | n :: ns => (convertedBy s t ns).converted (.nullableIf n (.scalar s))

/-- The conversions that are left when those without effect are peeled off from the outside: one that
makes a value nullable, and two that lead back to the type before them. -/
def unpeeled : List Bool → List Bool
  | true :: false :: ns => unpeeled (false :: ns)
  | m :: n :: l :: ns => if m = l then unpeeled (l :: ns) else m :: n :: l :: ns
  | ns => ns
termination_by ns => ns.length

variable {s : Scalar} {t : Term} {e : Enumeration} {k m n : Bool}

theorem peel?_converted_enum (ht : t.ty = .nullableIf k (.enum e)) :
    peel? (t.converted (.nullableIf n (.scalar s))) = none := by
  have hboxed : unboxed? t (.nullableIf n (.scalar s)) = none := by
    unfold unboxed?
    split
    · rename_i op inner via
      have hvia : via = .nullableIf k (.enum e) := ht
      rw [if_neg]
      intro h
      cases k <;> simp [hvia, Ty.nullableIf] at h
    · rfl
  have hlifted : unlifted? t (.nullableIf n (.scalar s)) = none := by
    rw [unlifted?, ht, if_neg]
    cases k <;> cases n <;> simp [Ty.nullableIf]
  have htoggled : untoggled? t (.nullableIf n (.scalar s)) = none := by
    unfold untoggled?
    split
    · rename_i inner via
      have hvia : via = .nullableIf k (.enum e) := ht
      rw [if_neg]
      simp [hvia]
    · rfl
  rw [Term.converted, peel?, hboxed, hlifted, htoggled]
  rfl

theorem peel?_converted_twice (hs : s.isIntegral = true) :
    peel? ((t.converted (.nullableIf n (.scalar s))).converted (.nullableIf m (.scalar s))) =
      if m = true ∧ n = false then some (t.converted (.nullableIf n (.scalar s)))
      else if t.ty = .nullableIf m (.scalar s) then some t else none := by
  have hboxed : unboxed? (t.converted (.nullableIf n (.scalar s))) (.nullableIf m (.scalar s)) = none := by
    have hne : Ty.nullableIf n (.scalar s) ≠ .object := by
      cases n
      · rintro h
        cases Ty.scalar.inj h
        cases hs
      · exact nofun
    simp [Term.converted, unboxed?, hne]
  rw [Term.converted, peel?, hboxed, unlifted?, Term.ty_converted, Option.none_or]
  have hlift : Ty.nullableIf m (.scalar s) = .nullable (.nullableIf n (.scalar s)) ↔
      m = true ∧ n = false := by
    cases m <;> cases n <;> simp [Ty.nullableIf]
  by_cases h : m = true ∧ n = false
  · rw [if_pos (hlift.2 h), if_pos h]
    rfl
  · rw [if_neg (mt hlift.1 h), if_neg h]
    simp [Term.converted, untoggled?]

theorem strip_convertedBy (hs : s.isIntegral = true) (ht : t.ty = .nullableIf k (.enum e))
    {ns : List Bool} (hns : ns ≠ []) :
    strip (convertedBy s t ns) = convertedBy s t (unpeeled ns) ∧ unpeeled ns ≠ [] := by
  fun_induction unpeeled ns with
  | case1 ns ih =>
    obtain ⟨hstrip, hne⟩ := ih (List.cons_ne_nil _ _)
    refine ⟨Eq.trans (strip_of_peel? ?_) hstrip, hne⟩
    exact (peel?_converted_twice hs).trans (if_pos ⟨rfl, rfl⟩)
  | case2 n l ns hn ih =>
    obtain ⟨hstrip, hne⟩ := ih (List.cons_ne_nil _ _)
    refine ⟨Eq.trans (strip_of_peel? ?_) hstrip, hne⟩
    refine (peel?_converted_twice hs).trans ((if_neg ?_).trans (if_pos rfl))
    rintro ⟨rfl, rfl⟩
    exact hn rfl rfl
  | case3 m n l ns hn hne =>
    refine ⟨strip_of_peel?_eq_none ?_, List.cons_ne_nil _ _⟩
    refine (peel?_converted_twice hs).trans ((if_neg fun h => hn h.1 h.2).trans (if_neg ?_))
    exact fun h => hne (Ty.nullableIf_scalar_inj.1 h).symm
  | case4 ns hlifted hlong =>
    refine ⟨strip_of_peel?_eq_none ?_, hns⟩
    match ns, hns with
    | [n], _ => exact peel?_converted_enum ht
    | [m, n], _ =>
      have hn : ¬ (m = true ∧ n = false) := by
        rintro ⟨rfl, rfl⟩
        exact hlifted [] rfl
      refine (peel?_converted_twice hs).trans ((if_neg hn).trans (if_neg ?_))
      exact fun h => Ty.nullableIf_enum_ne_scalar (ht.symm.trans h)
    | m :: n :: l :: ns, _ => exact absurd rfl (hlong m n l ns)

/-- An integer constant of the integer type or the nullable one, perhaps converted to the nullable one. -/
def integerOperand (s : Scalar) (raw : Int64) (given converted : Bool) : Term :=
  let constant : Term := .constant (.int raw) (.nullableIf given (.scalar s))
  if converted then constant.converted (.nullable (.scalar s)) else constant

variable {raw : Int64} {given converted : Bool}

theorem peel?_converted_constant (value : Literal) (ty target : Ty) :
    peel? ((Term.constant value ty).converted target) =
      if target = .nullable ty then some (.constant value ty) else none := by
  have hboxed : unboxed? (.constant value ty) target = none := rfl
  have htoggled : untoggled? (.constant value ty) target = none := rfl
  rw [Term.converted, peel?, hboxed, htoggled, Option.none_or, Option.or_none]
  rfl

theorem strip_integerOperand : strip (integerOperand s raw given converted) =
    integerOperand s raw given (converted && given) := by
  have hconstant : ∀ ty, strip (.constant (.int raw) ty) = .constant (.int raw) ty :=
    fun ty => strip_of_peel?_eq_none rfl
  cases converted with
  | false => exact hconstant _
  | true =>
    cases given with
    | false =>
      exact (strip_of_peel? ((peel?_converted_constant ..).trans (if_pos rfl))).trans (hconstant _)
    | true =>
      exact strip_of_peel?_eq_none ((peel?_converted_constant ..).trans (if_neg nofun))

theorem compareSymbols?_integerOperand (u : Term) :
    compareSymbols? (integerOperand s raw given converted) u = none := by
  cases converted with
  | false => rfl
  | true =>
    have hsymbol : symbol? (.nullableIf given (.scalar s)) (.nullable (.scalar s)) u = none := by
      cases given <;> rfl
    exact congrArg (Option.map _) hsymbol

theorem compareSymbols?_convertedBy (hs : s.isIntegral = true)
    (ht : t.ty = .nullableIf k (.enum e)) {ns : List Bool} (hns : ns ≠ []) :
    compareSymbols? (convertedBy s t ns) (integerOperand s raw given converted) =
      if ns = [k] ∧ converted = false ∧ (given = true → k = true) then
        some (t, .constant (.enum e raw) t.ty)
      else none := by
  match ns, hns with
  | [n], _ =>
    rw [convertedBy, convertedBy, Term.converted, compareSymbols?, ht]
    cases k <;> cases n <;> cases given <;> cases converted <;>
      simp [symbol?, integerOperand, Ty.nullableIf, Term.converted, hs, Ty.nonNullable]
  | n :: l :: ns, _ =>
    have hsymbol : ∀ u, symbol? (.nullableIf l (.scalar s)) (.nullableIf n (.scalar s)) u = none := by
      intro u
      cases l <;> rfl
    rw [if_neg (by simp)]
    exact congrArg (Option.map _) (hsymbol _)

/-- The comparison is turned back into one of the enumeration: one conversion is left, and the constant
has no nullable type, or it has the type that the nullable enumeration was converted to. -/
def ComparesSymbols (k : Bool) (ns : List Bool) (given converted : Bool) : Prop :=
  unpeeled ns = [k] ∧ (given = true → k = true ∧ converted = false)

instance (k : Bool) (ns : List Bool) (given converted : Bool) :
    Decidable (ComparesSymbols k ns given converted) :=
  inferInstanceAs (Decidable (_ ∧ _))

def comparedOperands (s : Scalar) (e : Enumeration) (t : Term) (k : Bool) (ns : List Bool) (raw : Int64)
    (given converted : Bool) : Term × Term :=
  if ComparesSymbols k ns given converted then (t, .constant (.enum e raw) t.ty)
  else (convertedBy s t (unpeeled ns), integerOperand s raw given (converted && given))

theorem normalise_comparison {op : BinaryOp} (hop : op.isComparison = true) (hs : s.isIntegral = true)
    (ht : t.ty = .nullableIf k (.enum e)) {ns : List Bool} (hns : ns ≠ []) (raw : Int64)
    (given converted : Bool) :
    normalise op (convertedBy s t ns) (integerOperand s raw given converted) =
      comparedOperands s e t k ns raw given converted ∧
    normalise op (integerOperand s raw given converted) (convertedBy s t ns) =
      (comparedOperands s e t k ns raw given converted).swap := by
  obtain ⟨hstrip, hne⟩ := strip_convertedBy hs ht hns
  have hcond : (unpeeled ns = [k] ∧ (converted && given) = false ∧ (given = true → k = true)) ↔
      ComparesSymbols k ns given converted := by
    rw [ComparesSymbols]
    cases given <;> cases converted <;> simp
  have hleft : normalise op (convertedBy s t ns) (integerOperand s raw given converted) =
      comparedOperands s e t k ns raw given converted := by
    rw [normalise, if_pos hop, hstrip, strip_integerOperand, compareSymbols?_integerOperand,
      compareSymbols?_convertedBy hs ht hne, comparedOperands]
    simp only [hcond]
    split <;> rfl
  exact ⟨hleft, by rw [normalise_swap, hleft]⟩

end Operand

namespace Dialect

open Operand

variable {d : Dialect} {root : Option String} {s : Scalar} {t : Term} {e : Enumeration} {k : Bool}

theorem render_convertedBy (ht : t.ty = .nullableIf k (.enum e)) (ns : List Bool) :
    d.render root (convertedBy s t ns) = d.render root t := by
  induction ns with
  | nil => rfl
  | cons n ns ih =>
    have hsilent : isSilentConversion (convertedBy s t ns).ty (.nullableIf n (.scalar s)) = true := by
      cases ns with
      | nil => simp [convertedBy, ht, isSilentConversion, Ty.underlyingEnum?, Ty.enum?]
      | cons m ns => simp [convertedBy, isSilentConversion]
    rw [convertedBy, Term.converted, render, if_pos hsilent, ih]

def integerText (raw : Int64) : String := String.ofList (Digits.ofInt raw.toInt)

theorem render_integerOperand (raw : Int64) (given converted : Bool) :
    d.render root (integerOperand s raw given converted) = .ok (.plain (integerText raw)) := by
  have hconstant : d.render root (.constant (.int raw) (.nullableIf given (.scalar s))) =
      .ok (.plain (integerText raw)) := by
    rw [render]
    simp [constantText, Ty.underlyingEnum?, Ty.enum?, Literal.text, integerText]
  cases converted with
  | false => exact hconstant
  | true =>
    have hsilent : isSilentConversion (.nullableIf given (.scalar s)) (.nullable (.scalar s)) = true := by
      cases given <;> simp [isSilentConversion, Ty.nullableIf, Ty.nonNullable]
    refine Eq.trans ?_ hconstant
    rw [integerOperand, if_pos rfl, Term.converted, render]
    exact if_pos hsilent

theorem render_enum (raw : Int64) (ty : Ty) :
    d.render root (.constant (.enum e raw) ty) = .ok (.plain (quote (e.format raw))) := by
  rw [render]
  simp [constantText, Literal.text]

theorem exists_token_of_isComparison {op : BinaryOp} (h : op.isComparison = true) :
    ∃ token, op.token? = some token := by
  cases op <;> first | exact ⟨_, rfl⟩ | cases h

theorem text_binary {op : BinaryOp} {token : String} (hop : op.token? = some token) {left right : Term}
    {l r : Rendered} (hl : d.render root (normalise op left right).1 = .ok l)
    (hr : d.render root (normalise op left right).2 = .ok r) (ty : Ty) :
    d.text root (.binary op left right ty) =
      .ok ("(" ++ l.text ++ " " ++ token ++ " " ++ r.text ++ ")") :=
  (text_binary_eq_ok_iff hop).2
    ⟨l.text, r.text, text_eq_ok.2 ⟨l, hl, rfl⟩, text_eq_ok.2 ⟨r, hr, rfl⟩, rfl⟩

def comparedText (e : Enumeration) (k : Bool) (ns : List Bool) (raw : Int64) (given converted : Bool) :
    String :=
  if ComparesSymbols k ns given converted then quote (e.format raw) else integerText raw

/-- An enumeration under conversions to an integer type is compared with an integer constant. The
enumeration is written as it is without the conversions, and each side stays where it was. The constant
is written as a symbol exactly when one conversion is left and the types allow for it, and with its
digits otherwise. -/
theorem comparison_with_integer_text (hs : s.isIntegral = true) (ht : t.ty = .nullableIf k (.enum e))
    {text : String} (h : d.text root t = .ok text) {ns : List Bool} (hns : ns ≠ []) {op : BinaryOp}
    (hop : op.isComparison = true) (raw : Int64) (given converted : Bool) (ty : Ty) :
    ∃ token, op.token? = some token ∧
      d.text root (.binary op (convertedBy s t ns) (integerOperand s raw given converted) ty) =
        .ok ("(" ++ text ++ " " ++ token ++ " " ++ comparedText e k ns raw given converted ++ ")") ∧
      d.text root (.binary op (integerOperand s raw given converted) (convertedBy s t ns) ty) =
        .ok ("(" ++ comparedText e k ns raw given converted ++ " " ++ token ++ " " ++ text ++ ")") := by
  obtain ⟨token, htoken⟩ := exists_token_of_isComparison hop
  obtain ⟨r, hr, rfl⟩ := text_eq_ok.1 h
  obtain ⟨hleft, hright⟩ := normalise_comparison hop hs ht hns raw given converted
  have hfst : d.render root (comparedOperands s e t k ns raw given converted).1 = .ok r := by
    rw [comparedOperands]
    split
    · exact hr
    · rw [render_convertedBy ht, hr]
  have hsnd : d.render root (comparedOperands s e t k ns raw given converted).2 =
      .ok (.plain (comparedText e k ns raw given converted)) := by
    rw [comparedOperands, comparedText]
    split
    · exact render_enum raw t.ty
    · exact render_integerOperand raw given _
  have hplain : (Rendered.plain (comparedText e k ns raw given converted)).text =
      comparedText e k ns raw given converted := rfl
  refine ⟨token, htoken, ?_, ?_⟩
  · rw [text_binary htoken ((congrArg (d.render root ·.1) hleft).trans hfst)
      ((congrArg (d.render root ·.2) hleft).trans hsnd) ty, hplain]
  · rw [text_binary htoken ((congrArg (d.render root ·.1) hright).trans hsnd)
      ((congrArg (d.render root ·.2) hright).trans hfst) ty, hplain]

def carColour (missing : Bool) : Term :=
  .member (some (.param ⟨"x", .object⟩)) ⟨"Car", "Colour", .nullableIf missing (.enum colour)⟩
where
  colour : Enumeration := ⟨"Colour", .int32, [("Red", 0), ("Blue", 1)], false⟩

theorem comparison_with_integer_text_carColour :
    Scalar.isIntegral .int32 = true ∧ (carColour true).ty = .nullableIf true (.enum carColour.colour) ∧
      camelCased.text (some "x") (carColour true) = .ok "colour" ∧ [true, false, true] ≠ [] ∧
      BinaryOp.isComparison .notEqual = true ∧
      ∃ token, BinaryOp.token? .notEqual = some token ∧
        camelCased.text (some "x") (.binary .notEqual
            (convertedBy .int32 (carColour true) [true, false, true]) (integerOperand .int32 1 false true)
            (.scalar .boolean)) =
          .ok ("(" ++ "colour" ++ " " ++ token ++ " " ++
            comparedText carColour.colour true [true, false, true] 1 false true ++ ")") ∧
        camelCased.text (some "x") (.binary .notEqual (integerOperand .int32 1 false true)
            (convertedBy .int32 (carColour true) [true, false, true]) (.scalar .boolean)) =
          .ok ("(" ++ comparedText carColour.colour true [true, false, true] 1 false true ++ " " ++
            token ++ " " ++ "colour" ++ ")") := by
  have htext : camelCased.text (some "x") (carColour true) = .ok "colour" := by decide +kernel
  exact ⟨rfl, rfl, htext, List.cons_ne_nil _ _, rfl, comparison_with_integer_text rfl rfl htext
    (List.cons_ne_nil _ _) rfl 1 false true (.scalar .boolean)⟩

/-- A colour is converted to the nullable integer type, or to the integer type twice, and compared with
one. The one is not written as a symbol. -/
theorem integer_beside_colour_not_symbol :
    camelCased.text (some "x") (.binary .equal (convertedBy .int32 (carColour false) [true])
        (integerOperand .int32 1 false true) (.scalar .boolean)) = .ok "(colour eq 1)" ∧
      camelCased.text (some "x") (.binary .equal (convertedBy .int32 (carColour false) [false, false])
        (integerOperand .int32 1 false false) (.scalar .boolean)) = .ok "(colour eq 1)" ∧
      quote (carColour.colour.format 1) = "'Blue'" := by
  refine ⟨?_, ?_, ?_⟩ <;> decide +kernel

end Dialect
end RemoteQuery
