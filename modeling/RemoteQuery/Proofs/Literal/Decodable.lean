import RemoteQuery.Proofs.Calendar
import RemoteQuery.Proofs.Guid
import RemoteQuery.Proofs.Number.Decimal
import RemoteQuery.Proofs.Wire.Reader

/-!
# Texts of literals tell them apart

A text is a word, or stands between quotes or brackets, perhaps after a word. Its first character says which.
A word goes on up to a comma or a bracket, and a quoted text up to a quote that is not doubled. So where the
text of a literal ends is seen from the text itself, also in a sequence within a sequence.
-/

namespace RemoteQuery

namespace Zone

def IsWhole (zone : Zone) : Prop := ∀ seconds, zone = .offset seconds → seconds.toInt % 60 = 0

theorem text_injective {y z : Zone} (hy : y.IsWhole) (hz : z.IsWhole) (h : y.text = z.text) : y = z := by
  cases y with
  | unspecified => cases z <;> first | rfl | cases h
  | utc =>
    cases z with
    | utc => rfl
    | unspecified => cases h
    | offset k =>
      rw [text, text] at h
      split at h <;> cases h
  | offset j =>
    cases z with
    | unspecified => cases h
    | utc =>
      rw [text, text] at h
      split at h <;> cases h
    | offset k =>
      have hj := hy j rfl
      have hk := hz k rfl
      obtain ⟨hsign, hrest⟩ := List.cons.inj h
      obtain ⟨hhours, hrest⟩ := Digits.padded_append_inj (stops_cons (by decide) _)
        (stops_cons (by decide) _) hrest
      have hminutes := Digits.padded_append_inj (a := []) (b := []) (stops_nil _) (stops_nil _)
        (by simpa using (List.cons.inj hrest).2)
      have hnegative : j < 0 ↔ k < 0 := by
        split at hsign <;> split at hsign
        · rename_i hj0 hk0
          exact iff_of_true hj0 hk0
        · exact absurd hsign (by decide)
        · exact absurd hsign (by decide)
        · rename_i hj0 hk0
          exact iff_of_false hj0 hk0
      rw [Int32.lt_iff_toInt_lt, Int32.lt_iff_toInt_lt, Int32.toInt_zero] at hnegative
      have hvalue : j.toInt = k.toInt := by omega
      rw [Int32.toInt_inj.1 hvalue]

theorem endsFraction_text (zone : Zone) : DateTime.EndsFraction zone.text := by
  cases zone with
  | unspecified => exact ⟨stops_nil _, fun _ h => nomatch h⟩
  | utc => exact ⟨stops_cons rfl _, by simp [text]⟩
  | offset seconds =>
    rw [text]
    split <;> exact ⟨stops_cons rfl _, by simp⟩

end Zone

namespace DateTime

variable {t u : DateTime} {rest : List Char}

theorem readFraction_tickText (ht : t.nanosecond % 100 = 0) (hr : EndsFraction rest) :
    readFraction (t.tickText ++ rest) = some (t.nanosecond, rest) := by
  have hn := (isTime_iff.1 t.isTime).2.2.2
  unfold tickText
  dsimp only
  split
  · have hzero : t.nanosecond = 0 := by omega
    rw [hzero]
    exact readFraction_of_endsFraction hr
  · rw [List.cons_append, readFraction_padded (by decide) (by decide) (by omega) hr.1]
    congr 2
    omega

theorem stops_tickText_append (t : DateTime) (hr : EndsFraction rest) :
    Stops Char.isDigit (t.tickText ++ rest) := by
  unfold tickText
  dsimp only
  split
  · exact hr.1
  · exact stops_cons rfl _

theorem wireText_injective {y z : Zone} (ht : t.nanosecond % 100 = 0) (hu : u.nanosecond % 100 = 0)
    (hy : y.IsWhole) (hz : z.IsWhole) (h : t.wireText y = u.wireText z) : t = u ∧ y = z := by
  rw [wireText, wireText, List.append_assoc, List.append_assoc] at h
  obtain ⟨hday, htime, hrest⟩ := secondsText_append_inj (t.stops_tickText_append y.endsFraction_text)
    (u.stops_tickText_append z.endsFraction_text) h
  have hread := readFraction_tickText ht y.endsFraction_text
  rw [hrest, readFraction_tickText hu z.endsFraction_text] at hread
  obtain ⟨hnano, hzone⟩ := Prod.mk.inj (Option.some.inj hread)
  exact ⟨eq_of_parts hday htime hnano.symm, Zone.text_injective hy hz hzone.symm⟩

end DateTime

def EndsItem (rest : List Char) : Prop := ∀ c ∈ rest.head?, c = ',' ∨ c = ']'

theorem EndsItem.breaks {rest : List Char} (h : EndsItem rest) : Reader.Breaks rest := by
  intro c hc
  rcases h c hc with rfl | rfl <;> exact ⟨by decide, by decide⟩

theorem EndsItem.stops {rest : List Char} (h : EndsItem rest) : Stops Reader.isWordChar rest :=
  fun c hc => (h.breaks c hc).1

theorem endsItem_cons {c : Char} (h : c = ',' ∨ c = ']') (rest : List Char) : EndsItem (c :: rest) := by
  intro b hb
  cases hb
  exact h

theorem Quoted.chars_append_inj {cs ds r s : List Char} (hr : EndsItem r) (hs : EndsItem s)
    (h : chars cs ++ r = chars ds ++ s) : cs = ds ∧ r = s := by
  simp only [chars, List.cons_append, List.append_assoc, List.nil_append] at h
  have hread := Reader.unquote_body cs hr.breaks
  rw [(List.cons.inj h).2, Reader.unquote_body ds hs.breaks] at hread
  obtain ⟨hc, hrest⟩ := Prod.mk.inj (Option.some.inj hread)
  exact ⟨hc.symm, hrest.symm⟩

theorem marked_append_inj {word cs ds r s : List Char} (hc : '\'' ∉ cs) (hd : '\'' ∉ ds)
    (h : word ++ '\'' :: (cs ++ '\'' :: r) = word ++ '\'' :: (ds ++ '\'' :: s)) : cs = ds ∧ r = s := by
  have hfree : ∀ {cs : List Char}, '\'' ∉ cs → ∀ c ∈ cs, (c != '\'') = true := by
    intro cs hcs c hmem
    simpa using fun he : c = '\'' => hcs (he ▸ hmem)
  obtain ⟨he, hrest⟩ := run_append_inj (p := (· != '\'')) (hfree hc) (hfree hd)
    (stops_cons (by simp) _) (stops_cons (by simp) _) (List.cons.inj (List.append_cancel_left h)).2
  exact ⟨he, (List.cons.inj hrest).2⟩

theorem quote_not_mem_padded (width n : Nat) : '\'' ∉ Digits.padded width n :=
  fun h => absurd (Digits.isDigit_of_mem_padded h) (by decide)

theorem DateTime.quote_not_mem_wireText (t : DateTime) (zone : Zone) : '\'' ∉ t.wireText zone := by
  have hyear : '\'' ∉ yearText t.year := by
    rw [yearText]
    split
    · exact quote_not_mem_padded _ _
    · split <;> simp [quote_not_mem_padded]
  have htick : '\'' ∉ t.tickText := by
    unfold tickText
    dsimp only
    split <;> simp [quote_not_mem_padded]
  have hzone : '\'' ∉ zone.text := by
    cases zone with
    | unspecified => simp [Zone.text]
    | utc => simp [Zone.text]
    | offset seconds =>
      rw [Zone.text]
      split <;> simp [quote_not_mem_padded]
  simp [wireText, secondsText, hyear, htick, hzone, quote_not_mem_padded]

theorem Guid.quote_not_mem_text (g : Guid) : '\'' ∉ g.text := by
  have hdigits : '\'' ∉ g.digits := by
    intro h
    have hall : ∀ d : Fin 16, '\'' ≠ Nat.digitChar d := by decide
    obtain ⟨d, hd⟩ := Hex.exists_of_mem_digits h
    exact hall d hd
  have htake : ∀ {k cs}, '\'' ∉ cs → '\'' ∉ List.take k cs := fun h hm => h (List.mem_of_mem_take hm)
  have hdrop : ∀ {k cs}, '\'' ∉ cs → '\'' ∉ List.drop k cs := fun h hm => h (List.mem_of_mem_drop hm)
  simp [text, htake, hdrop, hdigits]

namespace Literal

def isWord : Literal → Bool
  | .null | .bool _ | .int _ | .decimal _ => true
  | _ => false

variable {v w : Literal}

theorem isWordChar_of_mem_text (hv : v.isWord = true) : ∀ c ∈ v.text.toList, Reader.isWordChar c = true := by
  have hdigit : ∀ {c : Char}, c.isDigit = true → Reader.isWordChar c = true := by
    intro c hc
    rw [Reader.isWordChar, isNameChar, Char.isAlphanum, hc]
    simp
  cases v with
  | null => exact List.all_eq_true.1 rfl
  | bool b => cases b <;> exact List.all_eq_true.1 rfl
  | int i =>
    intro c hc
    rw [text, String.toList_ofList, Digits.ofInt] at hc
    split at hc
    · rcases List.mem_cons.1 hc with rfl | hc
      · decide
      · exact hdigit (Digits.isDigit_of_mem_ofNat hc)
    · exact hdigit (Digits.isDigit_of_mem_ofNat hc)
  | decimal d =>
    intro c hc
    have htail : c ∈ d.tail → Reader.isWordChar c = true := by
      intro hc
      rw [Decimal.tail] at hc
      split at hc
      · cases hc
      · rcases List.mem_cons.1 hc with rfl | hc
        · decide
        · exact hdigit (d.isDigit_of_mem_fraction hc)
    rw [text, String.toList_append, String.toList_ofList, Decimal.text_eq] at hc
    rcases List.mem_append.1 hc with hc | hc
    · rcases List.mem_append.1 hc with hc | hc
      · split at hc
        · rw [List.mem_singleton.1 hc]
          decide
        · cases hc
      · exact (List.mem_append.1 hc).elim (fun hc => hdigit (d.isDigit_of_mem_whole hc)) htail
    · obtain rfl : c = 'm' := by simpa using hc
      decide
  | _ => cases hv

theorem toNat?_eq_none {cs : List Char} (h : 'm' ∈ cs) : Digits.toNat? cs = none := by
  refine if_neg fun hall => ?_
  exact absurd (List.all_eq_true.1 hall.2 'm' h) (by decide)

theorem literal?_eq_none {cs : List Char} (h : 'm' ∈ cs) : Reader.literal? cs = none := by
  have hne : ∀ word : List Char, 'm' ∉ word → cs ≠ word := by
    rintro word hw rfl
    exact hw h
  have hint : Reader.int? cs = none := by
    rw [Reader.int?.eq_def]
    split
    · rename_i ds
      have hm : 'm' ∈ ds := by simpa using h
      rw [toNat?_eq_none hm, Option.map_none]
    · rw [toNat?_eq_none h, Option.map_none]
  rw [Reader.literal?, if_neg (hne _ (by decide)), if_neg (hne _ (by decide)),
    if_neg (hne _ (by decide)), hint, Option.map_none]

theorem literal?_text_decimal (d : Decimal) : Reader.literal? (text (.decimal d)).toList = none :=
  literal?_eq_none (by simp [text])

theorem word_text_injective (hv : v.isWord = true) (hw : w.isWord = true) (h : v.text = w.text) :
    v = w := by
  have hread : ∀ {u : Literal}, u.isWord = true → (∀ d, u ≠ .decimal d) →
      Reader.literal? u.text.toList = some u := by
    intro u hu hd
    cases u with
    | null => rfl
    | bool b => cases b <;> rfl
    | int i =>
      rw [text, String.toList_ofList]
      exact Reader.literal?_ofInt i
    | decimal d => exact absurd rfl (hd d)
    | _ => cases hu
  by_cases hvd : ∃ d, v = .decimal d <;> by_cases hwd : ∃ e, w = .decimal e
  · obtain ⟨d, rfl⟩ := hvd
    obtain ⟨e, rfl⟩ := hwd
    have hlist := congrArg String.toList h
    simp only [text, String.toList_append, String.toList_ofList] at hlist
    rw [Decimal.text_injective (List.append_cancel_right hlist)]
  · obtain ⟨d, rfl⟩ := hvd
    have hw' := hread hw (not_exists.1 hwd)
    rw [← h, literal?_text_decimal] at hw'
    cases hw'
  · obtain ⟨e, rfl⟩ := hwd
    have hv' := hread hv (not_exists.1 hvd)
    rw [h, literal?_text_decimal] at hv'
    cases hv'
  · have hv' := hread hv (not_exists.1 hvd)
    rw [h, hread hw (not_exists.1 hwd)] at hv'
    exact (Option.some.inj hv').symm

/-- The values that are written out exactly. Date-times are so at whole ticks, and offsets at whole minutes.
Floats, characters, enumeration values and types are left out. -/
inductive Exact : Literal → Prop
  | null : Exact .null
  | bool (b : Bool) : Exact (.bool b)
  | int (i : Int64) : Exact (.int i)
  | decimal (d : Decimal) : Exact (.decimal d)
  | string (s : String) : Exact (.string s)
  | guid (g : Guid) : Exact (.guid g)
  | dateTime {t : DateTime} {zone : Zone} (tick : t.nanosecond % 100 = 0) (whole : zone.IsWhole) :
      Exact (.dateTime t zone)
  | sequence {items : List Literal} (each : ∀ l ∈ items, Exact l) : Exact (.sequence items)

def kindOf (c : Char) : Char := if c ∈ ['\'', 'd', 'g', '['] then c else 'w'

def kind : Literal → Char
  | .string _ => '\''
  | .dateTime .. => 'd'
  | .guid _ => 'g'
  | .sequence _ => '['
  | _ => 'w'

theorem Exact.isWord_iff (hv : v.Exact) : v.isWord = true ↔ v.kind = 'w' := by
  cases hv <;> simp [isWord, kind]

theorem exists_kind (hv : v.Exact) : ∃ c cs, v.text.toList = c :: cs ∧ kindOf c = v.kind ∧ c ≠ ']' := by
  have hdigit : ∀ {c : Char}, c.isDigit = true → kindOf c = 'w' ∧ c ≠ ']' := by
    intro c hc
    have hne : ∀ {m : Char}, m.isDigit = false → c ≠ m := fun hm => ne_of_class hc hm
    refine ⟨if_neg ?_, hne rfl⟩
    simp [hne (m := '\'') rfl, hne (m := 'd') rfl, hne (m := 'g') rfl, hne (m := '[') rfl]
  cases hv with
  | null => exact ⟨'n', _, rfl, rfl, by decide⟩
  | bool b => cases b <;> exact ⟨_, _, rfl, rfl, by decide⟩
  | int i =>
    rw [text, String.toList_ofList, Digits.ofInt]
    split
    · exact ⟨'-', _, rfl, rfl, by decide⟩
    · obtain ⟨c, cs, hc⟩ := List.exists_cons_of_ne_nil (Digits.ofNat_ne_nil i.toInt.natAbs)
      obtain ⟨hk, hne⟩ := hdigit (Digits.isDigit_of_mem_ofNat (hc ▸ List.mem_cons_self))
      exact ⟨c, cs, hc, hk, hne⟩
  | decimal d =>
    obtain ⟨c, cs, hw, hc⟩ := d.exists_whole_eq_cons
    rw [text, String.toList_append, String.toList_ofList, Decimal.text_eq, hw]
    cases d.negative with
    | true => exact ⟨'-', _, rfl, rfl, by decide⟩
    | false => exact ⟨c, _, rfl, hdigit hc⟩
  | string s => exact ⟨'\'', _, by rw [text, quote, String.toList_ofList, Quoted.chars], rfl, by decide⟩
  | guid g => exact ⟨'g', _, by simp [text]; rfl, rfl, by decide⟩
  | dateTime _ _ => exact ⟨'d', _, by simp [text]; rfl, rfl, by decide⟩
  | sequence _ => exact ⟨'[', _, by simp [text]; rfl, rfl, by decide⟩

theorem kind_eq_of_append_eq (hv : v.Exact) (hw : w.Exact) {r s : List Char}
    (h : v.text.toList ++ r = w.text.toList ++ s) : v.kind = w.kind := by
  obtain ⟨b, bs, hb, hbk, -⟩ := exists_kind hv
  obtain ⟨c, cs, hc, hck, -⟩ := exists_kind hw
  rw [hb, hc] at h
  rw [← hbk, ← hck, (List.cons.inj h).1]

def afterItem (rest : List Char) : List Literal → List Char
  | [] => ']' :: rest
  | l :: ls => ',' :: (l.text.toList ++ afterItem rest ls)

def afterBracket (rest : List Char) : List Literal → List Char
  | [] => ']' :: rest
  | l :: ls => l.text.toList ++ afterItem rest ls

theorem toList_text_sequence_append (items : List Literal) (rest : List Char) :
    (text (.sequence items)).toList ++ rest = '[' :: afterBracket rest items := by
  have hcomma : ∀ l ls, [','].intercalate ((l :: ls).map fun l => l.text.toList) ++ ']' :: rest =
      l.text.toList ++ afterItem rest ls := by
    intro l ls
    induction ls generalizing l with
    | nil => rw [List.map_singleton, List.intercalate_singleton, afterItem]
    | cons m ls ih =>
      have hnext := ih m
      rw [List.map_cons] at hnext
      rw [List.map_cons, List.map_cons, List.intercalate_cons_cons, List.append_assoc, List.append_assoc,
        hnext, afterItem]
      rfl
  have htext : (text (.sequence items)).toList ++ rest =
      '[' :: ([','].intercalate (items.map fun l => l.text.toList) ++ ']' :: rest) := by
    simp [text, texts_eq_map, String.toList_intercalate, Function.comp_def]
  rw [htext]
  cases items with
  | nil => rfl
  | cons l ls => rw [hcomma, afterBracket]

theorem endsItem_afterItem (rest : List Char) (ls : List Literal) : EndsItem (afterItem rest ls) := by
  cases ls with
  | nil => exact endsItem_cons (Or.inr rfl) _
  | cons l ls => exact endsItem_cons (Or.inl rfl) _

/-- Where the text of the literal is followed by what may follow, it is cut off, and it is the text of no other
literal. -/
def Decodes (v : Literal) : Prop :=
  ∀ {w : Literal} {r s : List Char}, w.Exact → EndsItem r → EndsItem s →
    v.text.toList ++ r = w.text.toList ++ s → v = w ∧ r = s

theorem afterItem_inj {ls ms : List Literal} {r s : List Char} (hl : ∀ l ∈ ls, l.Decodes)
    (hm : ∀ m ∈ ms, m.Exact) (h : afterItem r ls = afterItem s ms) : ls = ms ∧ r = s := by
  induction ls generalizing ms with
  | nil =>
    cases ms with
    | nil => exact ⟨rfl, (List.cons.inj h).2⟩
    | cons m ms => exact absurd (List.cons.inj h).1 (by decide)
  | cons l ls ih =>
    cases ms with
    | nil => exact absurd (List.cons.inj h).1 (by decide)
    | cons m ms =>
      obtain ⟨hfirst, hls⟩ := List.forall_mem_cons.1 hl
      obtain ⟨hexact, hms⟩ := List.forall_mem_cons.1 hm
      obtain ⟨he, hrest⟩ := hfirst hexact (endsItem_afterItem r ls) (endsItem_afterItem s ms)
        (List.cons.inj h).2
      obtain ⟨hes, hr⟩ := ih hls hms hrest
      exact ⟨by rw [he, hes], hr⟩

theorem afterBracket_inj {ls ms : List Literal} {r s : List Char} (hl : ∀ l ∈ ls, l.Exact ∧ l.Decodes)
    (hm : ∀ m ∈ ms, m.Exact) (h : afterBracket r ls = afterBracket s ms) : ls = ms ∧ r = s := by
  have hopen : ∀ {l : Literal} {cs ds : List Char}, l.Exact → l.text.toList ++ cs ≠ ']' :: ds := by
    intro l cs ds hexact he
    obtain ⟨c, bs, hc, -, hne⟩ := exists_kind hexact
    rw [hc] at he
    exact hne (List.cons.inj he).1
  cases ls with
  | nil =>
    cases ms with
    | nil => exact ⟨rfl, (List.cons.inj h).2⟩
    | cons m ms => exact absurd h.symm (hopen (hm m List.mem_cons_self))
  | cons l ls =>
    cases ms with
    | nil => exact absurd h (hopen (hl l List.mem_cons_self).1)
    | cons m ms =>
      -- after a comma on both sides, this is the case of further items
      exact afterItem_inj (fun l hm => (hl l hm).2) hm (congrArg (',' :: ·) h)

theorem decodes_of_isWord (hv : v.isWord = true) (hexact : v.Exact) : v.Decodes := by
  intro w r s hw hr hs h
  have hword : w.isWord = true := by
    rw [hw.isWord_iff, ← kind_eq_of_append_eq hexact hw h]
    exact hexact.isWord_iff.1 hv
  obtain ⟨htext, hrest⟩ := run_append_inj (isWordChar_of_mem_text hv) (isWordChar_of_mem_text hword)
    hr.stops hs.stops h
  exact ⟨word_text_injective hv hword (String.toList_inj.1 htext), hrest⟩

theorem decodes_string (t : String) : (string t).Decodes := by
  intro w r s hw hr hs h
  have hkind := kind_eq_of_append_eq (.string t) hw h
  cases hw with
  | string u =>
    simp only [text, quote, String.toList_ofList] at h
    obtain ⟨he, hrest⟩ := Quoted.chars_append_inj hr hs h
    rw [String.toList_inj.1 he]
    exact ⟨rfl, hrest⟩
  | _ => exact absurd hkind (by simp [kind])

theorem decodes_guid (g : Guid) : (guid g).Decodes := by
  intro w r s hw hr hs h
  have hkind := kind_eq_of_append_eq (.guid g) hw h
  cases hw with
  | guid g' =>
    have htexts : "guid".toList ++ '\'' :: (g.text ++ '\'' :: r) =
        "guid".toList ++ '\'' :: (g'.text ++ '\'' :: s) := by simpa [text] using h
    obtain ⟨he, hrest⟩ := marked_append_inj g.quote_not_mem_text g'.quote_not_mem_text htexts
    rw [Guid.text_injective he]
    exact ⟨rfl, hrest⟩
  | _ => exact absurd hkind (by simp [kind])

theorem decodes_dateTime {t : DateTime} {zone : Zone} (ht : t.nanosecond % 100 = 0) (hz : zone.IsWhole) :
    (dateTime t zone).Decodes := by
  intro w r s hw hr hs h
  have hkind := kind_eq_of_append_eq (.dateTime ht hz) hw h
  cases hw with
  | @dateTime u zone' hu hz' =>
    have htexts : "datetime".toList ++ '\'' :: (t.wireText zone ++ '\'' :: r) =
        "datetime".toList ++ '\'' :: (u.wireText zone' ++ '\'' :: s) := by simpa [text] using h
    obtain ⟨he, hrest⟩ := marked_append_inj (t.quote_not_mem_wireText zone)
      (u.quote_not_mem_wireText zone') htexts
    obtain ⟨rfl, rfl⟩ := DateTime.wireText_injective ht hu hz hz' he
    exact ⟨rfl, hrest⟩
  | _ => exact absurd hkind (by simp [kind])

theorem decodes_sequence {items : List Literal} (h : ∀ l ∈ items, l.Exact ∧ l.Decodes) :
    (sequence items).Decodes := by
  intro w r s hw hr hs he
  have hkind := kind_eq_of_append_eq (.sequence fun l hl => (h l hl).1) hw he
  cases hw with
  | @sequence items' hitems =>
    rw [toList_text_sequence_append, toList_text_sequence_append] at he
    obtain ⟨rfl, hrest⟩ := afterBracket_inj h hitems (List.cons.inj he).2
    exact ⟨rfl, hrest⟩
  | _ => exact absurd hkind (by simp [kind])

theorem Exact.decodes (hv : v.Exact) : v.Decodes := by
  induction hv with
  | null => exact decodes_of_isWord rfl .null
  | bool b => exact decodes_of_isWord rfl (.bool b)
  | int i => exact decodes_of_isWord rfl (.int i)
  | decimal d => exact decodes_of_isWord rfl (.decimal d)
  | string s => exact decodes_string s
  | guid g => exact decodes_guid g
  | dateTime tick whole => exact decodes_dateTime tick whole
  | sequence each ih => exact decodes_sequence fun l hl => ⟨each l hl, ih l hl⟩

/-- Literals that are written out exactly are uniquely decodable. -/
theorem text_uniquely_decodable (hv : v.Exact) (hw : w.Exact) :
    (∀ r s : String, EndsItem r.toList → EndsItem s.toList → v.text ++ r = w.text ++ s → v = w ∧ r = s) ∧
      (v.text = w.text → v = w) := by
  have hsuffix : ∀ r s : String, EndsItem r.toList → EndsItem s.toList →
      v.text ++ r = w.text ++ s → v = w ∧ r = s := by
    intro r s hr hs h
    have hlist := congrArg String.toList h
    rw [String.toList_append, String.toList_append] at hlist
    obtain ⟨he, hrest⟩ := hv.decodes hw hr hs hlist
    exact ⟨he, String.toList_inj.1 hrest⟩
  exact ⟨hsuffix, fun h => (hsuffix "" "" nofun nofun (by rw [h])).1⟩

def leapSecond : DateTime := ⟨10000, 6, 30, 23, 59, 60, 100, rfl, rfl⟩

def nested : Literal :=
  .sequence [.sequence [.string "],['", .dateTime leapSecond (.offset (-5400))],
    .decimal { negative := true, mantissa := 0, scale := 1 }]

def flat : Literal :=
  .sequence [.sequence [.string "],['"], .dateTime leapSecond (.offset (-5400)),
    .decimal { negative := true, mantissa := 0, scale := 1 }]

theorem text_uniquely_decodable_nested :
    nested.Exact ∧ flat.Exact ∧ EndsItem ",1]".toList ∧ EndsItem "]".toList ∧
      nested.text ++ ",1]" ≠ flat.text ++ "]" := by
  have hdate : (dateTime leapSecond (.offset (-5400))).Exact :=
    .dateTime rfl fun seconds h => by cases h; rfl
  have hnested : nested.Exact := .sequence (List.forall_mem_cons.2
    ⟨.sequence (List.forall_mem_cons.2 ⟨.string _, List.forall_mem_singleton.2 hdate⟩),
      List.forall_mem_singleton.2 (.decimal _)⟩)
  have hflat : flat.Exact := .sequence (List.forall_mem_cons.2
    ⟨.sequence (List.forall_mem_singleton.2 (.string _)),
      List.forall_mem_cons.2 ⟨hdate, List.forall_mem_singleton.2 (.decimal _)⟩⟩)
  have hcomma : EndsItem ",1]".toList := endsItem_cons (Or.inl rfl) _
  have hbracket : EndsItem "]".toList := endsItem_cons (Or.inr rfl) _
  refine ⟨hnested, hflat, hcomma, hbracket, fun h => ?_⟩
  have he := ((text_uniquely_decodable hnested hflat).1 ",1]" "]" hcomma hbracket h).1
  simp [nested, flat] at he

end Literal
end RemoteQuery
