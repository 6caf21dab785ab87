import RemoteQuery.Proofs.Wire.Preference

/-!
# Paths of members

A path of members from the root is written as its names with points between them, and the root alone
as one word. Names that are identifiers contain no point, so the text of a path gives back the names
as they were written. A letter case that changes the first letter makes names alike that differ
there.
-/

namespace RemoteQuery

theorem LetterCase.lower_of_lt {c : Char} (h : c.toNat < 128) :
    LetterCase.lower c = [c.toLower] := by
  have hall : ∀ n : Fin 128, LetterCase.lower (Char.ofNat n) = [(Char.ofNat n).toLower] := by
    decide +kernel
  have hc := hall ⟨c.toNat, h⟩
  rwa [Char.ofNat_toNat] at hc

section Identifier

def isNameChar (c : Char) : Bool := c.isAlphanum || c == '_'

def isNameStart (c : Char) : Bool := c.isAlpha || c == '_'

variable {name : String} {c : Char}

theorem isIdentifier_iff : isIdentifier name = true ↔ ∃ c cs, name.toList = c :: cs ∧
    isNameStart c = true ∧ ∀ b ∈ cs, isNameChar b = true := by
  rw [isIdentifier]
  split
  · rename_i h
    simp [h]
  · rename_i c cs h
    have hs : ((c.isAlpha || c == '_') && cs.all fun c => c.isAlphanum || c == '_') = true ↔
        isNameStart c = true ∧ ∀ b ∈ cs, isNameChar b = true := by
      rw [Bool.and_eq_true, List.all_eq_true]
      rfl
    rw [hs, h]
    constructor
    · exact fun hn => ⟨c, cs, rfl, hn⟩
    · rintro ⟨c', cs', he, hn⟩
      obtain ⟨rfl, rfl⟩ := List.cons.inj he
      exact hn

theorem toNat_lt_of_isNameStart (h : isNameStart c = true) : c.toNat < 128 := by
  have hcases : (65 ≤ c.val ∧ c.val ≤ 90 ∨ 97 ≤ c.val ∧ c.val ≤ 122) ∨ c = '_' := by
    have hbool : ((decide (c.val ≥ 65 ∧ c.val ≤ 90) ||
        decide (c.val ≥ 97) && decide (c.val ≤ 122)) || c == '_') = true := h
    simpa [UInt32.le_iff_toNat_le] using hbool
  rw [Char.toNat]
  rcases hcases with hc | rfl
  · simp only [UInt32.le_iff_toNat_le, UInt32.reduceToNat] at hc
    omega
  · decide

theorem isNameChar_of_isNameStart (h : isNameStart c = true) : isNameChar c = true := by
  rw [isNameStart, Bool.or_eq_true] at h
  rw [isNameChar, Char.isAlphanum, Bool.or_eq_true, Bool.or_eq_true]
  exact h.imp_left Or.inl

theorem isNameStart_toLower (h : isNameStart c = true) : isNameStart c.toLower = true := by
  have hall : ∀ n : Fin 128, isNameStart (Char.ofNat n) = true →
      isNameStart (Char.ofNat n).toLower = true := by
    decide +kernel
  have hc := hall ⟨c.toNat, toNat_lt_of_isNameStart h⟩
  rw [Char.ofNat_toNat] at hc
  exact hc h

theorem point_not_mem_of_isIdentifier (h : isIdentifier name = true) : '.' ∉ name.toList := by
  obtain ⟨c, cs, hn, hc, hcs⟩ := isIdentifier_iff.1 h
  rw [hn, List.mem_cons]
  rintro (rfl | hm)
  · exact absurd hc (by decide)
  · exact absurd (hcs '.' hm) (by decide)

end Identifier

namespace Naming

variable {naming : Naming} {m n : String}

/-- The names are written alike: the same name, or one that differs in the case of its first letter
where the dialect lowers it. -/
def Alike (naming : Naming) (m n : String) : Prop :=
  match naming with
  | .verbatim => m = n
  | .camelCase => ∃ c d cs, m.toList = c :: cs ∧ n.toList = d :: cs ∧ c.toLower = d.toLower

theorem toList_apply_camelCase (h : isIdentifier n = true) :
    ∃ c cs, n.toList = c :: cs ∧ (camelCase.apply n).toList = c.toLower :: cs := by
  obtain ⟨c, cs, hn, hc, -⟩ := isIdentifier_iff.1 h
  refine ⟨c, cs, hn, ?_⟩
  have hl := LetterCase.lower_of_lt (toNat_lt_of_isNameStart hc)
  rw [apply, LetterCase.lowerFirst, hn]
  simp [hl]

theorem isIdentifier_apply (h : isIdentifier n = true) : isIdentifier (naming.apply n) = true := by
  cases naming with
  | verbatim => exact h
  | camelCase =>
    obtain ⟨c, cs, hn, ha⟩ := toList_apply_camelCase h
    obtain ⟨c', cs', hn', hc, hcs⟩ := isIdentifier_iff.1 h
    obtain ⟨rfl, rfl⟩ := List.cons.inj (hn.symm.trans hn')
    exact isIdentifier_iff.2 ⟨_, _, ha, isNameStart_toLower hc, hcs⟩

theorem apply_eq_apply_iff (hm : isIdentifier m = true) (hn : isIdentifier n = true) :
    naming.apply m = naming.apply n ↔ naming.Alike m n := by
  cases naming with
  | verbatim => exact Iff.rfl
  | camelCase =>
    obtain ⟨c, cs, hmc, hma⟩ := toList_apply_camelCase hm
    obtain ⟨d, ds, hnd, hna⟩ := toList_apply_camelCase hn
    rw [← String.toList_inj, hma, hna, Alike, hmc, hnd]
    constructor
    · intro h
      obtain ⟨hcd, rfl⟩ := List.cons.inj h
      exact ⟨c, d, cs, rfl, rfl, hcd⟩
    · rintro ⟨c', d', cs', h, h', hcd⟩
      obtain ⟨rfl, rfl⟩ := List.cons.inj h
      obtain ⟨rfl, rfl⟩ := List.cons.inj h'
      rw [hcd]

end Naming

def dotted (names : List String) : String := ".".intercalate names

theorem dotted_concat {names : List String} (h : names ≠ []) (n : String) :
    dotted (names ++ [n]) = dotted names ++ "." ++ n := by
  rw [dotted, String.intercalate_append_of_ne_nil h (List.cons_ne_nil n []),
    String.intercalate_singleton]
  rfl

theorem dotted_injective {ms ns : List String} (hms : ms ≠ []) (hns : ns ≠ [])
    (hm : ∀ m ∈ ms, '.' ∉ m.toList) (hn : ∀ n ∈ ns, '.' ∉ n.toList) (h : dotted ms = dotted ns) :
    ms = ns := by
  have split : ∀ {ls : List String}, ls ≠ [] → (∀ l ∈ ls, '.' ∉ l.toList) →
      (dotted ls).toList.splitOn '.' = ls.map String.toList := by
    intro ls hne hls
    rw [dotted, String.toList_intercalate]
    exact List.splitOn_intercalate '.' (by simpa using hls) (by simpa using hne)
  have hl : ms.map String.toList = ns.map String.toList := by
    rw [← split hms hm, ← split hns hn, h]
  exact (List.map_inj_right fun _ _ => String.toList_inj.1).1 hl

namespace Dialect

/-- The term takes members with these names from the root on, and no mapping writes any of them. -/
inductive RootPath (d : Dialect) (root : String) : Term → List String → Prop
  | root {q : Param} (hq : q.name = root) : RootPath d root (.param q) []
  | member {t : Term} {names : List String} {m : Member} (ht : RootPath d root t names)
    (hm : d.mappings.resolve? m.signature = none) :
    RootPath d root (.member (some t) m) (names ++ [m.name])

def writtenNames : List String → List String
  | [] => ["this"]
  | n :: names => n :: names

theorem writtenNames_ne_nil (names : List String) : writtenNames names ≠ [] := by
  cases names <;> simp [writtenNames]

theorem map_writtenNames {f : String → String} (h : f "this" = "this") (names : List String) :
    (writtenNames names).map f = writtenNames (names.map f) := by
  cases names <;> simp [writtenNames, h]

theorem writtenNames_concat (names : List String) (n : String) :
    writtenNames (names ++ [n]) = names ++ [n] := by
  cases names <;> rfl

variable {d : Dialect} {root : String} {t : Term} {names : List String}

theorem RootPath.isRoot_iff (h : d.RootPath root t names) :
    isRoot (some root) t = true ↔ names = [] := by
  cases h with
  | root hq => simp [isRoot, Term.isParamNamed_iff, hq]
  | member _ _ => simp [isRoot, Term.isParamNamed_iff]

theorem RootPath.render_eq (h : d.RootPath root t names) :
    d.render (some root) t = .ok (.plain (dotted (writtenNames (names.map d.naming.apply)))) := by
  induction h with
  | root hq =>
    rw [Dialect.render]
    simp [hq, writtenNames, dotted]
  | @member t names m ht hm ih =>
    rw [Dialect.render, hm]
    dsimp only
    by_cases hr : isRoot (some root) t = true
    · obtain rfl := ht.isRoot_iff.1 hr
      rw [if_pos hr]
      simp [writtenNames, dotted]
    · have hne : names.map d.naming.apply ≠ [] := by
        simpa using fun h => hr (ht.isRoot_iff.2 h)
      obtain ⟨n, ns, hns⟩ := List.exists_cons_of_ne_nil hne
      rw [if_neg hr, ih, List.map_append, List.map_singleton, writtenNames_concat,
        dotted_concat hne, hns]
      rfl

end Dialect
end RemoteQuery
