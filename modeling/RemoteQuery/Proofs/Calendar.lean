import RemoteQuery.Calendar
import RemoteQuery.Proofs.Text.Numerals

/-!
# Reading date-times

Each part of the text of a date-time is read back before anything that is no digit. So the parts are read
one after another, and what comes after the seconds is left as it is.
-/

namespace RemoteQuery.DateTime

variable {n width : Nat} {ds rest : List Char}

theorem isWhiteSpace_of_isDigit {c : Char} (h : c.isDigit = true) : isWhiteSpace c = false := by
  rw [Char.isDigit_iff_toNat] at h
  have hlow : '0'.toNat = 48 ∧ '9'.toNat = 57 := by decide
  simp only [isWhiteSpace, Bool.or_eq_false_iff, Bool.and_eq_false_iff, decide_eq_false_iff_not,
    beq_eq_false_iff_ne]
  omega

theorem skipSpace_cons {c : Char} (h : isWhiteSpace c = false) (cs : List Char) :
    skipSpace (c :: cs) = c :: cs :=
  List.dropWhile_cons_of_neg (by simp [h])

theorem skipSpace_digits (hd : ∀ c ∈ ds, c.isDigit = true) (hne : ds ≠ []) (rest : List Char) :
    skipSpace (ds ++ rest) = ds ++ rest := by
  obtain ⟨c, ds, rfl⟩ := List.exists_cons_of_ne_nil hne
  exact skipSpace_cons (isWhiteSpace_of_isDigit (hd c List.mem_cons_self)) _

theorem readDigits_append (hd : ∀ c ∈ ds, c.isDigit = true) (hne : ds ≠ []) (hw : ds.length ≤ width)
    (hr : Stops Char.isDigit rest) : readDigits width (ds ++ rest) = some (ds, rest) := by
  have hstop : Stops Char.isDigit (rest.take (width - ds.length)) := by
    intro c hc
    rw [List.head?_take] at hc
    split at hc
    · cases hc
    · exact hr c hc
  rw [readDigits, List.take_append, List.take_of_length_le hw, takeWhile_append_of_stops hd hstop,
    if_neg hne, List.drop_left]

theorem readNumber_padded (hw : 0 < width) (hn : n < 10 ^ width) (hr : Stops Char.isDigit rest) :
    readNumber width (Digits.padded width n ++ rest) = some (n, rest) := by
  have hd : ∀ c ∈ Digits.padded width n, c.isDigit = true := fun _ => Digits.isDigit_of_mem_padded
  have hne := Digits.padded_ne_nil width n
  rw [readNumber, skipSpace_digits hd hne,
    readDigits_append hd hne (Nat.le_of_eq (Digits.length_padded hw hn)) hr, Option.map_some]
  simp only [Digits.ofDigitChars_padded]

theorem readYear_yearText (year : Int) (hr : Stops Char.isDigit rest) :
    readYear (yearText year ++ rest) = some (year, rest) := by
  have hd : ∀ c ∈ Digits.padded 4 year.natAbs, c.isDigit = true := fun _ => Digits.isDigit_of_mem_padded
  have hne := Digits.padded_ne_nil 4 year.natAbs
  have hlong : readDigits (Digits.padded 4 year.natAbs ++ rest).length
      (Digits.padded 4 year.natAbs ++ rest) = some (Digits.padded 4 year.natAbs, rest) :=
    readDigits_append hd hne (by simp) hr
  rw [yearText]
  split
  · rename_i h
    have hlen : (Digits.padded 4 year.natAbs).length ≤ 4 :=
      Nat.le_of_eq (Digits.length_padded (by decide) (by omega))
    obtain ⟨c, cs, hc⟩ := List.exists_cons_of_ne_nil hne
    have hcd : c.isDigit = true := hd c (hc ▸ List.mem_cons_self)
    have hread := readDigits_append hd hne hlen hr
    have hvalue := Digits.ofDigitChars_padded 4 year.natAbs
    rw [readYear, skipSpace_digits hd hne]
    rw [hc] at hread hvalue ⊢
    rw [List.cons_append] at hread ⊢
    split
    · rename_i heq
      exact absurd (List.cons.inj heq).1 (ne_of_class hcd rfl)
    · rename_i heq
      exact absurd (List.cons.inj heq).1 (ne_of_class hcd rfl)
    · rw [hread, Option.map_some]
      simp only [hvalue, Int.natAbs_of_nonneg h.1]
  · split
    · rename_i h
      rw [List.cons_append, readYear, skipSpace_cons (by decide)]
      refine (congrArg (Option.map fun r => (-(Nat.ofDigitChars 10 r.1 0 : Int), r.2)) hlong).trans ?_
      simp only [Option.map_some, Digits.ofDigitChars_padded,
        Int.ofNat_natAbs_of_nonpos (Int.le_of_lt h), Int.neg_neg]
    · rename_i h
      rw [List.cons_append, readYear, skipSpace_cons (by decide)]
      refine (congrArg (Option.map fun r => ((Nat.ofDigitChars 10 r.1 0 : Int), r.2)) hlong).trans ?_
      simp only [Option.map_some, Digits.ofDigitChars_padded, Int.natAbs_of_nonneg (Int.not_lt.1 h)]

theorem readMark_cons {mark : Char} (h : isWhiteSpace mark = false) (rest : List Char) :
    readMark mark (mark :: rest) = some rest := by
  rw [readMark, skipSpace_cons h]
  exact if_pos rfl

theorem readFraction_of_ne {c : Char} (h : c ≠ '.') (rest : List Char) :
    readFraction (c :: rest) = some (0, c :: rest) := by
  rw [readFraction]
  exact fun _ he => h (List.cons.inj he).1

theorem readFraction_padded (hw : 0 < width) (hw' : width ≤ 9) (hn : n < 10 ^ width)
    (hr : Stops Char.isDigit rest) :
    readFraction ('.' :: (Digits.padded width n ++ rest)) = some (n * 10 ^ (9 - width), rest) := by
  have hlen := Digits.length_padded hw hn
  have hread : readDigits 9 (Digits.padded width n ++ rest) = some (Digits.padded width n, rest) :=
    readDigits_append (fun _ => Digits.isDigit_of_mem_padded) (Digits.padded_ne_nil width n)
      (Nat.le_trans (Nat.le_of_eq hlen) hw') hr
  have hdrop : rest.dropWhile Char.isDigit = rest := dropWhile_append_of_stops (w := []) (by simp) hr
  rw [readFraction, hread]
  simp only [Option.bind_eq_bind, Option.bind_some, Option.pure_def, hlen, hdrop,
    Digits.ofDigitChars_padded]
  rfl

variable (t : DateTime)

def EndsFraction (rest : List Char) : Prop := Stops Char.isDigit rest ∧ ∀ c ∈ rest.head?, c ≠ '.'

theorem readFraction_of_endsFraction (h : EndsFraction rest) : readFraction rest = some (0, rest) := by
  cases rest with
  | nil => rfl
  | cons c rest => exact readFraction_of_ne (h.2 c rfl) rest

theorem readFraction_fractionText (hn : n < 1000000000) (hr : EndsFraction rest) :
    readFraction (fractionText n ++ rest) = some (n, rest) := by
  rw [fractionText]
  split
  · rename_i h
    rw [h]
    exact readFraction_of_endsFraction hr
  · split
    · rename_i h
      rw [List.cons_append, readFraction_padded (by decide) (by decide) (by omega) hr.1]
      congr 2
      omega
    · split
      · rename_i h
        rw [List.cons_append, readFraction_padded (by decide) (by decide) (by omega) hr.1]
        congr 2
        omega
      · rw [List.cons_append, readFraction_padded (by decide) (by decide) (by omega) hr.1]
        congr 2
        omega

theorem isDay_iff {year : Int} {month day : Nat} :
    Calendar.isDay year month day = true ↔ (-262143 ≤ year ∧ year ≤ 262142) ∧
      (1 ≤ month ∧ month ≤ 12) ∧ 1 ≤ day ∧ day ≤ Calendar.daysInMonth year month := by
  simp [Calendar.isDay, and_assoc]

theorem isTime_iff {hour minute second nanosecond : Nat} :
    Calendar.isTime hour minute second nanosecond = true ↔
      hour < 24 ∧ minute < 60 ∧ second ≤ 60 ∧ nanosecond < 1000000000 := by
  simp [Calendar.isTime, and_assoc]

theorem daysInMonth_le (year : Int) (month : Nat) : Calendar.daysInMonth year month ≤ 31 := by
  unfold Calendar.daysInMonth
  split
  · split <;> decide
  all_goals decide

theorem eq_of_parts {t u : DateTime} (hd : t.year = u.year ∧ t.month = u.month ∧ t.day = u.day)
    (ht : t.hour = u.hour ∧ t.minute = u.minute ∧ t.second = u.second)
    (hn : t.nanosecond = u.nanosecond) : t = u := by
  cases t
  cases u
  simp_all

theorem yearText_append_inj {y z : Int} {a b : List Char} (ha : Stops Char.isDigit a)
    (hb : Stops Char.isDigit b) (h : yearText y ++ a = yearText z ++ b) : y = z ∧ a = b := by
  have hread := readYear_yearText y ha
  rw [h, readYear_yearText z hb] at hread
  obtain ⟨hy, hrest⟩ := Prod.mk.inj (Option.some.inj hread)
  exact ⟨hy.symm, hrest.symm⟩

theorem secondsText_append_inj {t u : DateTime} {r s : List Char} (hr : Stops Char.isDigit r)
    (hs : Stops Char.isDigit s) (h : t.secondsText ++ r = u.secondsText ++ s) :
    (t.year = u.year ∧ t.month = u.month ∧ t.day = u.day) ∧
      (t.hour = u.hour ∧ t.minute = u.minute ∧ t.second = u.second) ∧ r = s := by
  have hmark : ∀ {c : Char} {cs : List Char}, c.isDigit = false → Stops Char.isDigit (c :: cs) :=
    fun hc => stops_cons hc _
  simp only [secondsText, List.append_assoc, List.cons_append] at h
  obtain ⟨hyear, h⟩ := yearText_append_inj (hmark (by decide)) (hmark (by decide)) h
  obtain ⟨hmonth, h⟩ :=
    Digits.padded_append_inj (hmark (by decide)) (hmark (by decide)) (List.cons.inj h).2
  obtain ⟨hday, h⟩ :=
    Digits.padded_append_inj (hmark (by decide)) (hmark (by decide)) (List.cons.inj h).2
  obtain ⟨hhour, h⟩ :=
    Digits.padded_append_inj (hmark (by decide)) (hmark (by decide)) (List.cons.inj h).2
  obtain ⟨hminute, h⟩ :=
    Digits.padded_append_inj (hmark (by decide)) (hmark (by decide)) (List.cons.inj h).2
  obtain ⟨hsecond, h⟩ := Digits.padded_append_inj hr hs (List.cons.inj h).2
  exact ⟨⟨hyear, hmonth, hday⟩, ⟨hhour, hminute, hsecond⟩, h⟩

theorem read?_text : read? t.text = some t := by
  obtain ⟨-, ⟨-, hmonth⟩, -, hday⟩ := isDay_iff.1 t.isDay
  obtain ⟨hhour, hminute, hsecond, hnano⟩ := isTime_iff.1 t.isTime
  have hday' := Nat.le_trans hday (daysInMonth_le t.year t.month)
  have hnil : EndsFraction [] := ⟨stops_nil _, fun _ h => nomatch h⟩
  have hfraction := readFraction_fractionText hnano hnil
  rw [List.append_nil] at hfraction
  have hstop : Stops Char.isDigit (fractionText t.nanosecond) := by
    rw [fractionText]
    split
    · exact stops_nil _
    · split
      · exact stops_cons rfl _
      · split <;> exact stops_cons rfl _
  have hdash : ∀ cs, readMark '-' ('-' :: cs) = some cs := readMark_cons rfl
  have hT : ∀ cs, readMark 'T' ('T' :: cs) = some cs := readMark_cons rfl
  have hcolon : ∀ cs, readMark ':' (':' :: cs) = some cs := readMark_cons rfl
  have hnumber : ∀ n c cs, n < 10 ^ 2 → c.isDigit = false →
      readNumber 2 (Digits.padded 2 n ++ c :: cs) = some (n, c :: cs) :=
    fun n c cs hn hc => readNumber_padded (by decide) hn (stops_cons hc cs)
  have hlast : readNumber 2 (Digits.padded 2 t.second ++ fractionText t.nanosecond) =
      some (t.second, fractionText t.nanosecond) := readNumber_padded (by decide) (by omega) hstop
  simp only [text, secondsText, List.append_assoc, List.cons_append]
  rw [read?, readYear_yearText t.year (stops_cons rfl _)]
  simp only [Option.bind_eq_bind, Option.bind_some, hdash, hT, hcolon,
    hnumber t.month '-' _ (by omega) rfl, hnumber t.day 'T' _ (by omega) rfl,
    hnumber t.hour ':' _ (by omega) rfl, hnumber t.minute ':' _ (by omega) rfl, hlast, hfraction]
  exact dif_pos ⟨rfl, t.isDay, t.isTime⟩

end RemoteQuery.DateTime
