import RemoteQuery.Proofs.Literal.Decodable
import RemoteQuery.Proofs.Number.Shortest

/-!
# Texts of numbers

Integers, decimals and floats of both precisions are told apart by their texts: a decimal and a single-precision
float have a mark, and a double has a point or is written with letters. Within a kind the text gives the value,
with the scale of a decimal and the sign of a zero; only the words of a float that stand for no number have one
text.
-/

namespace RemoteQuery

namespace FloatClass

def negative : FloatClass → Bool
  | .nan => false
  | .infinite negative | .finite negative _ _ => negative

def body (mark : List Char) (digits : Nat → Int → List Char) : FloatClass → List Char
  | .nan => 'N' :: 'a' :: 'N' :: mark
  | .infinite _ => 'I' :: 'N' :: 'F' :: mark
  | .finite _ s e => digits s e

def text (mark : List Char) (digits : Nat → Int → List Char) (c : FloatClass) : List Char :=
  (if c.negative then ['-'] else []) ++ c.body mark digits

variable {mark : List Char} {digits : Nat → Int → List Char} {c d : FloatClass}

theorem mem_text {b : Char} (h : b ∈ c.text mark digits) :
    b ∈ ['-', 'N', 'a', 'I', 'F'] ∨ b ∈ mark ∨ ∃ s e, b ∈ digits s e := by
  cases c <;> grind [text, negative, body]

section Finite

variable (hdigits : ∀ s e, ∃ b rest, digits s e = b :: rest ∧ b.isDigit = true)

include hdigits

theorem exists_body_eq_cons (mark : List Char) (c : FloatClass) : ∃ b rest, c.body mark digits = b :: rest ∧ b ≠ '-' := by
  cases c with
  | nan => exact ⟨'N', _, rfl, by decide⟩
  | infinite n => exact ⟨'I', _, rfl, by decide⟩
  | finite n s e =>
    obtain ⟨b, rest, hb, hd⟩ := hdigits s e
    exact ⟨b, rest, hb, ne_of_class hd rfl⟩

theorem parts_of_text_eq (h : c.text mark digits = d.text mark digits) :
    c.negative = d.negative ∧ c.body mark digits = d.body mark digits := by
  obtain ⟨b, bs, hb, hbd⟩ := exists_body_eq_cons hdigits mark c
  obtain ⟨b', bs', hb', hbd'⟩ := exists_body_eq_cons hdigits mark d
  rw [text, text] at h
  cases hc : c.negative <;> cases hd : d.negative
  · simpa [hc, hd] using h
  · rw [hc, hd, hb] at h
    exact absurd (List.cons.inj h).1 hbd
  · rw [hc, hd, hb'] at h
    exact absurd (List.cons.inj h).1.symm hbd'
  · simpa [hc, hd] using h

theorem eq_of_text_eq (hinj : ∀ n n' s s' e e', c = .finite n s e → d = .finite n' s' e' →
    digits s e = digits s' e' → s = s' ∧ e = e') (h : c.text mark digits = d.text mark digits) : c = d := by
  obtain ⟨hsign, hbody⟩ := parts_of_text_eq hdigits h
  have hne : ∀ s e m cs, m.isDigit = false → digits s e ≠ m :: cs := by
    intro s e m cs hm he
    obtain ⟨b, rest, hb, hd⟩ := hdigits s e
    exact ne_of_class hd hm (List.cons.inj (hb.symm.trans he)).1
  cases c with
  | nan =>
    cases d with
    | nan => rfl
    | infinite n => cases hbody
    | finite n s e => exact absurd hbody.symm (hne s e 'N' _ rfl)
  | infinite n =>
    cases d with
    | nan => cases hbody
    | infinite n' => exact congrArg infinite hsign
    | finite n' s e => exact absurd hbody.symm (hne s e 'I' _ rfl)
  | finite n s e =>
    cases d with
    | nan => exact absurd hbody (hne s e 'N' _ rfl)
    | infinite n' => exact absurd hbody (hne s e 'I' _ rfl)
    | finite n' s' e' =>
      obtain ⟨rfl, rfl⟩ := hinj n n' s s' e e' rfl rfl hbody
      exact congrArg (fun n => finite n s e) hsign

end Finite
end FloatClass

open Shortest (Writes)

namespace Double

def finiteText (s : Nat) (e : Int) : List Char :=
  Shortest.text .double s e ++ if (Shortest.text .double s e).contains '.' then [] else ['.', '0']

theorem writes_finiteText (s : Nat) (e : Int) :
    Writes (finiteText s e) (Shortest.ofFinite .double s e).value :=
  (Shortest.writes_text .double s e).withPoint

theorem text_eq (d : Double) : d.text = d.classify.text [] finiteText := by
  rw [text]
  split
  · rename_i h
    rw [h]
    rfl
  · rename_i n h
    rw [h]
    cases n <;> rfl
  · rename_i n s e h
    rw [h]
    exact List.append_assoc ..

theorem classify_eq_of_text_eq {d e : Double} (h : d.text = e.text) : d.classify = e.classify := by
  rw [text_eq, text_eq] at h
  refine FloatClass.eq_of_text_eq (fun s e => (writes_finiteText s e).exists_cons) ?_ h
  intro n n' s s' k k' hd he hfinite
  have hv := (writes_finiteText s k).unique (hfinite ▸ writes_finiteText s' k')
  exact Shortest.ofFinite_value_injective (FloatFormat.isFinite_of_classify hd)
    (FloatFormat.isFinite_of_classify he) hv

end Double

namespace Single

def finiteText (m : Nat) (e : Int) : List Char := Shortest.text .single m e ++ ['f']

theorem text_eq (s : Single) : s.text = s.classify.text ['f'] finiteText := by
  rw [text]
  split
  · rename_i h
    rw [h]
    rfl
  · rename_i n h
    rw [h]
    cases n <;> rfl
  · rename_i n m e h
    rw [h]
    exact List.append_assoc ..

theorem classify_eq_of_text_eq {s t : Single} (h : s.text = t.text) : s.classify = t.classify := by
  rw [text_eq, text_eq] at h
  refine FloatClass.eq_of_text_eq (fun m e => ?_) ?_ h
  · obtain ⟨b, rest, hb, hd⟩ := (Shortest.writes_text .single m e).exists_cons
    exact ⟨b, rest ++ ['f'], by rw [finiteText, hb, List.cons_append], hd⟩
  · intro n n' m m' k k' hs ht hfinite
    have hv := (Shortest.writes_text .single m k).unique
      (List.append_cancel_right hfinite ▸ Shortest.writes_text .single m' k')
    exact Shortest.ofFinite_value_injective (FloatFormat.isFinite_of_classify hs)
      (FloatFormat.isFinite_of_classify ht) hv

end Single

namespace Literal

inductive IsNumber : Literal → Prop
  | int (i : Int64) : IsNumber (.int i)
  | decimal (d : Decimal) : IsNumber (.decimal d)
  | single (s : Single) : IsNumber (.single s)
  | double (d : Double) : IsNumber (.double d)

/-- The same value of one kind. All words of a float that stand for no number are one value. -/
inductive SameNumber : Literal → Literal → Prop
  | refl (v : Literal) : SameNumber v v
  | single {s t : Single} (hs : s.classify = .nan) (ht : t.classify = .nan) :
      SameNumber (.single s) (.single t)
  | double {d e : Double} (hd : d.classify = .nan) (he : e.classify = .nan) :
      SameNumber (.double d) (.double e)

def markOf (cs : List Char) : Char :=
  if 'm' ∈ cs then 'm' else if 'f' ∈ cs then 'f' else if '.' ∈ cs ∨ 'N' ∈ cs then '.' else '0'

def mark : Literal → Char
  | .decimal _ => 'm'
  | .single _ => 'f'
  | .double _ => '.'
  | _ => '0'

theorem markOf_int (i : Int64) : markOf (text (.int i)).toList = '0' := by
  have hdigit : ∀ c ∈ (text (.int i)).toList, c.isDigit = true ∨ c = '-' := by
    intro c hc
    rw [text, String.toList_ofList, Digits.ofInt] at hc
    split at hc
    · exact (List.mem_cons.1 hc).elim Or.inr fun hc => Or.inl (Digits.isDigit_of_mem_ofNat hc)
    · exact Or.inl (Digits.isDigit_of_mem_ofNat hc)
  have hnot : ∀ m : Char, m.isDigit = false → m ≠ '-' → m ∉ (text (.int i)).toList := by
    intro m hm hne hmem
    rcases hdigit m hmem with hd | rfl
    · rw [hm] at hd
      cases hd
    · exact hne rfl
  rw [markOf, if_neg (hnot 'm' rfl (by decide)), if_neg (hnot 'f' rfl (by decide)), if_neg]
  exact not_or.2 ⟨hnot '.' rfl (by decide), hnot 'N' rfl (by decide)⟩

theorem markOf_decimal (d : Decimal) : markOf (text (.decimal d)).toList = 'm' := by
  rw [markOf, if_pos]
  simp [text]

theorem markOf_single (s : Single) : markOf (text (.single s)).toList = 'f' := by
  have hm : 'm' ∉ s.text := by
    intro h
    rw [Single.text_eq] at h
    rcases FloatClass.mem_text h with h | h | ⟨m, e, h⟩
    · simp at h
    · simp at h
    · rcases List.mem_append.1 h with h | h
      · exact absurd ((Shortest.writes_text .single m e).isDigit_or_eq_point _ h) (by decide)
      · simp at h
  have hf : 'f' ∈ s.text := by
    rw [Single.text_eq, FloatClass.text]
    refine List.mem_append_right _ ?_
    cases s.classify <;> simp [FloatClass.body, Single.finiteText]
  rw [text, String.toList_ofList, markOf, if_neg hm, if_pos hf]

theorem markOf_double (d : Double) : markOf (text (.double d)).toList = '.' := by
  have hnot : ∀ m : Char, m ∉ ['-', 'N', 'a', 'I', 'F'] → m.isDigit = false → m ≠ '.' → m ∉ d.text := by
    intro m hletter hdigit hpoint h
    rw [Double.text_eq] at h
    rcases FloatClass.mem_text h with h | h | ⟨s, e, h⟩
    · exact hletter h
    · cases h
    · rcases (Double.writes_finiteText s e).isDigit_or_eq_point _ h with hd | he
      · rw [hdigit] at hd
        cases hd
      · exact hpoint he
  have hpoint : '.' ∈ d.text ∨ 'N' ∈ d.text := by
    rw [Double.text_eq, FloatClass.text]
    cases d.classify with
    | nan => exact Or.inr (by simp [FloatClass.body])
    | infinite n => exact Or.inr (by simp [FloatClass.body])
    | finite n s e =>
      refine Or.inl (List.mem_append_right _ ?_)
      rw [FloatClass.body, Double.finiteText]
      split
      · rename_i h
        exact List.mem_append_left _ (List.contains_iff_mem.1 h)
      · exact List.mem_append_right _ List.mem_cons_self
  rw [text, String.toList_ofList, markOf, if_neg (hnot 'm' (by decide) rfl (by decide)),
    if_neg (hnot 'f' (by decide) rfl (by decide)), if_pos hpoint]

variable {v w : Literal}

theorem markOf_text (hv : v.IsNumber) : markOf v.text.toList = v.mark := by
  cases hv with
  | int i => exact markOf_int i
  | decimal d => exact markOf_decimal d
  | single s => exact markOf_single s
  | double d => exact markOf_double d

theorem text_eq_of_sameNumber (h : SameNumber v w) : v.text = w.text := by
  cases h with
  | refl => rfl
  | single hs ht => rw [text, text, Single.text_eq, Single.text_eq, hs, ht]
  | double hd he => rw [text, text, Double.text_eq, Double.text_eq, hd, he]

/-- Two numbers have one text exactly when they are the same value of one kind. -/
theorem number_text_eq_iff (hv : v.IsNumber) (hw : w.IsNumber) : v.text = w.text ↔ SameNumber v w := by
  refine ⟨fun h => ?_, text_eq_of_sameNumber⟩
  have hmark : v.mark = w.mark := by rw [← markOf_text hv, h, markOf_text hw]
  have hword : v.isWord = true → w.isWord = true → SameNumber v w := by
    intro hv' hw'
    rw [word_text_injective hv' hw' h]
    exact .refl w
  cases hv with
  | int i =>
    cases hw with
    | int j => exact hword rfl rfl
    | _ => cases hmark
  | decimal d =>
    cases hw with
    | decimal e => exact hword rfl rfl
    | _ => cases hmark
  | single s =>
    cases hw with
    | single t =>
      have hclass := Single.classify_eq_of_text_eq (String.ofList_injective h)
      rcases Single.classify_injective hclass with rfl | hnan
      · exact .refl _
      · exact .single hnan (hclass ▸ hnan)
    | _ => cases hmark
  | double d =>
    cases hw with
    | double e =>
      have hclass := Double.classify_eq_of_text_eq (String.ofList_injective h)
      rcases Double.classify_injective hclass with rfl | hnan
      · exact .refl _
      · exact .double hnan (hclass ▸ hnan)
    | _ => cases hmark

theorem number_text_eq_iff_zeros :
    IsNumber (.double ⟨0⟩) ∧ IsNumber (.double ⟨0x8000000000000000⟩) ∧
      (text (.double ⟨0⟩) = text (.double ⟨0x8000000000000000⟩) ↔
        SameNumber (.double ⟨0⟩) (.double ⟨0x8000000000000000⟩)) :=
  ⟨.double _, .double _, number_text_eq_iff (.double _) (.double _)⟩

end Literal
end RemoteQuery
