import RemoteQuery.Json.Printer
import RemoteQuery.Json.Reader
import RemoteQuery.Proofs.Text.Numerals

/-!
# Reading printed documents

A document is read back from its one-line text, if its numbers are those of the grammar and nothing in it is
garbled. The steps of the readers are counted against the text that is read, so the length of the text is
enough.
-/

namespace RemoteQuery.Json

variable {n : Nat} {rest : List Char}

theorem readUnit_digits {k : Nat} (hk : k < 16 ^ 4) (rest : List Char) :
    readUnit (Hex.digits 4 k ++ rest) = some (k, rest) := by
  have hlen := Hex.length_digits 4 k
  have hread := Hex.toNat?_map_digits (f := id) (fun _ => Hex.value?_digitChar) 4 hk
  rw [List.map_id] at hread
  rw [readUnit, if_neg (by rw [List.length_append]; omega), List.take_left' hlen, hread,
    List.drop_left' hlen]
  rfl

theorem readCodePoint_digits {k : Nat} (hk : k < 0xD800) (rest : List Char) :
    readCodePoint (Hex.digits 4 k ++ rest) = some (some (Char.ofNat k), rest) := by
  have hhigh : isHighSurrogate k = false := by
    rw [isHighSurrogate, Bool.and_eq_false_iff]
    exact Or.inl (decide_eq_false (by omega))
  have hlow : isLowSurrogate k = false := by
    rw [isLowSurrogate, Bool.and_eq_false_iff]
    exact Or.inl (decide_eq_false (by omega))
  rw [readCodePoint, readUnit_digits (by omega)]
  simp [hhigh, hlow]

theorem readChars_escapeChar (c : Char) (n : Nat) (rest : List Char) :
    readChars (n + 1) (escapeChar c ++ rest) =
      (readChars n rest).map fun r => (some c :: r.1, r.2) := by
  have hshort : ∀ e, e ≠ 'u' → shortEscape? e = some c → readChars (n + 1) ('\\' :: e :: rest) =
      (readChars n rest).map fun r => (some c :: r.1, r.2) := by
    intro e hu he
    rw [readChars, he]
    · cases readChars n rest <;> rfl
    · exact hu
  rw [escapeChar]
  split
  · rename_i h
    exact hshort '"' (by decide) (by rw [h]; rfl)
  · rename_i hquote
    split
    · rename_i h
      exact hshort '\\' (by decide) (by rw [h]; rfl)
    · rename_i hbackslash
      split
      · rename_i h
        exact hshort 'n' (by decide) (by rw [h]; rfl)
      split
      · rename_i h
        exact hshort 'r' (by decide) (by rw [h]; rfl)
      split
      · rename_i h
        exact hshort 't' (by decide) (by rw [h]; rfl)
      split
      · rename_i h
        exact hshort 'b' (by decide) (by rw [← Char.ofNat_toNat c, h]; rfl)
      split
      · rename_i h
        exact hshort 'f' (by decide) (by rw [← Char.ofNat_toNat c, h]; rfl)
      split
      · rename_i h
        rw [List.cons_append, List.cons_append, readChars, readCodePoint_digits (by omega),
          Char.ofNat_toNat]
        simp only [Option.bind_eq_bind, Option.bind_some]
        cases readChars n rest <;> rfl
      · rename_i h
        rw [List.singleton_append, readChars, if_neg (not_or.2 ⟨h, hbackslash⟩)]
        · cases readChars n rest <;> rfl
        · exact hquote
        · exact fun _ hc => absurd hc hbackslash
        · exact fun _ _ hc => absurd hc hbackslash

theorem length_escapeChar_pos (c : Char) : 0 < (escapeChar c).length := by
  unfold escapeChar
  repeat' split
  all_goals simp

theorem readChars_escaped (cs : List Char) (h : (cs.flatMap escapeChar).length < n) :
    readChars n (cs.flatMap escapeChar ++ '"' :: rest) = some (cs.map some, rest) := by
  induction cs generalizing n with
  | nil =>
    obtain ⟨n, rfl⟩ := Nat.exists_eq_add_one_of_ne_zero (Nat.ne_of_gt h)
    rfl
  | cons c cs ih =>
    have hpos := length_escapeChar_pos c
    rw [List.flatMap_cons, List.length_append] at h
    obtain ⟨n, rfl⟩ := Nat.exists_eq_add_one_of_ne_zero (Nat.ne_of_gt (Nat.zero_lt_of_lt h))
    rw [List.flatMap_cons, List.append_assoc, readChars_escapeChar, ih (by omega)]
    rfl

theorem readString_escaped (s : String) (rest : List Char) :
    readString (s.toList.flatMap escapeChar ++ '"' :: rest) = some (some s, rest) := by
  rw [readString, readChars_escaped s.toList (by rw [List.length_append]; omega)]
  have hall : (s.toList.map some).mapM id = some s.toList := by
    rw [List.mapM_map, mapM_eq_some_map (f := id ∘ some) (g := id) fun _ _ => rfl, List.map_id]
  simp [hall]

theorem printString_append (s : String) (rest : List Char) :
    printString s ++ rest = '"' :: (s.toList.flatMap escapeChar ++ '"' :: rest) := by
  simp [printString]

def EndsValue (rest : List Char) : Prop := ∀ c ∈ rest.head?, c = ',' ∨ c = ']' ∨ c = '\x7d'

theorem EndsValue.stops {p : Char → Bool} (h : EndsValue rest) (hcomma : p ',' = false)
    (hbracket : p ']' = false) (hbrace : p '\x7d' = false) : Stops p rest := by
  intro c hc
  rcases h c hc with rfl | rfl | rfl
  · exact hcomma
  · exact hbracket
  · exact hbrace

theorem endsValue_cons {c : Char} (h : c = ',' ∨ c = ']' ∨ c = '\x7d') (rest : List Char) :
    EndsValue (c :: rest) := by
  intro b hb
  cases hb
  exact h

theorem readDigits_append {ds : List Char} (hd : ∀ c ∈ ds, c.isDigit = true)
    (hr : Stops Char.isDigit rest) : readDigits (ds ++ rest) = (ds, rest) := by
  rw [readDigits, takeWhile_append_of_stops hd hr, dropWhile_append_of_stops hd hr]

theorem head?_ofNat {k : Nat} (hk : k ≠ 0) : (Digits.ofNat k).head? ≠ some '0' := by
  induction k using Nat.strongRecOn with
  | ind k ih =>
    by_cases hlt : k < 10
    · rw [Digits.ofNat, Nat.toDigits_of_lt_base hlt, List.head?_cons]
      have hall : ∀ d : Fin 10, d.1 ≠ 0 → some (Nat.digitChar d) ≠ some '0' := by decide
      exact hall ⟨k, hlt⟩ hk
    · have htail := ih (k / 10) (by omega) (by omega)
      obtain ⟨c, cs, hc⟩ := List.exists_cons_of_ne_nil (Digits.ofNat_ne_nil (k / 10))
      rw [hc] at htail
      rw [Digits.ofNat, Nat.toDigits_of_base_le (by decide) (by omega), ← Digits.ofNat, hc]
      exact htail

namespace Number

/-- A number of the grammar: no zero stands before other digits. -/
structure WellFormed (n : Number) : Prop where
  whole_ne_nil : n.whole ≠ []
  isDigit_whole : ∀ c ∈ n.whole, c.isDigit = true
  zero_alone : n.whole.head? = some '0' → n.whole = ['0']
  isDigit_fraction : ∀ c ∈ n.fraction, c.isDigit = true

theorem wellFormed_ofInt (i : Int) : (ofInt i).WellFormed where
  whole_ne_nil := Digits.ofNat_ne_nil _
  isDigit_whole _ := Digits.isDigit_of_mem_ofNat
  zero_alone hzero := by
    by_cases hk : i.natAbs = 0
    · rw [ofInt, hk]
      rfl
    · exact absurd hzero (head?_ofNat hk)
  isDigit_fraction := nofun

theorem WellFormed.exists_whole {n : Number} (h : n.WellFormed) :
    ∃ c cs, n.whole = c :: cs ∧ c.isDigit = true := by
  obtain ⟨c, cs, hc⟩ := List.exists_cons_of_ne_nil h.whole_ne_nil
  exact ⟨c, cs, hc, h.isDigit_whole c (hc ▸ List.mem_cons_self)⟩

theorem WellFormed.exists_print {n : Number} (h : n.WellFormed) :
    ∃ c cs, n.print = c :: cs ∧ (c = '-' ∨ c.isDigit = true) := by
  obtain ⟨c, cs, hc, hd⟩ := h.exists_whole
  rw [print, hc]
  split
  · exact ⟨'-', _, rfl, Or.inl rfl⟩
  · exact ⟨c, _, rfl, Or.inr hd⟩

variable {p : Char → Bool} {rest : List Char}

theorem stops_exponentText (n : Number) (he : p 'e' = false) (hr : Stops p rest) :
    Stops p (n.exponentText ++ rest) := by
  rw [exponentText]
  split
  · exact hr
  · exact stops_cons he _

theorem stops_fractionText (n : Number) (hpoint : p '.' = false) (hr : Stops p rest) :
    Stops p (n.fractionText ++ rest) := by
  rw [fractionText]
  split
  · exact hr
  · exact stops_cons hpoint _

theorem readFraction_fractionText {n : Number} (h : ∀ c ∈ n.fraction, c.isDigit = true)
    (hdigit : Stops Char.isDigit rest) (hpoint : Stops (· == '.') rest) :
    readFraction (n.fractionText ++ rest) = some (n.fraction, rest) := by
  rw [fractionText]
  split
  · rename_i hnil
    rw [hnil, List.nil_append, readFraction]
    rintro cs rfl
    cases hpoint '.' rfl
  · rename_i hne
    rw [List.cons_append, readFraction, readDigits_append h hdigit]
    exact if_neg hne

theorem readExponent_ofInt (e : Int) (hr : Stops Char.isDigit rest) :
    readExponent ('e' :: Digits.ofInt e ++ rest) = some (some e, rest) := by
  have hread : readDigits (Digits.ofNat e.natAbs ++ rest) = (Digits.ofNat e.natAbs, rest) :=
    readDigits_append (fun _ => Digits.isDigit_of_mem_ofNat) hr
  by_cases he : e < 0
  · have hneg : -(e.natAbs : Int) = e := by omega
    rw [Digits.ofInt, if_pos he, List.cons_append, List.cons_append, readExponent, if_pos (Or.inl rfl)]
    simp only [hread, Digits.toNat?_ofNat, if_true, hneg]
  · have hpos : (e.natAbs : Int) = e := by omega
    have hsign : ∀ {m : Char}, m.isDigit = false → ∀ cs, Digits.ofNat e.natAbs ++ rest ≠ m :: cs := by
      intro m hm cs hcs
      obtain ⟨c, ds, hc⟩ := List.exists_cons_of_ne_nil (Digits.ofNat_ne_nil e.natAbs)
      rw [hc] at hcs
      exact ne_of_class (Digits.isDigit_of_mem_ofNat (hc ▸ List.mem_cons_self)) hm (List.cons.inj hcs).1
    rw [Digits.ofInt, if_neg he, List.cons_append, readExponent, if_pos (Or.inl rfl)]
    · simp only [hread, Digits.toNat?_ofNat, Bool.false_eq_true, if_false, hpos]
    · exact hsign rfl
    · exact hsign rfl

theorem readExponent_exponentText (n : Number) (hr : EndsValue rest) :
    readExponent (n.exponentText ++ rest) = some (n.exponent, rest) := by
  rw [exponentText]
  split
  · rename_i hnone
    rw [hnone, List.nil_append]
    cases rest with
    | nil => rfl
    | cons c rest => rcases hr c rfl with rfl | rfl | rfl <;> rfl
  · rename_i e hsome
    rw [hsome]
    exact readExponent_ofInt e (hr.stops rfl rfl rfl)

theorem WellFormed.readNumber_print {n : Number} (h : n.WellFormed) (hr : EndsValue rest) :
    readNumber (n.print ++ rest) = some (n, rest) := by
  have hstops : ∀ {p : Char → Bool}, p 'e' = false → p ',' = false → p ']' = false → p '\x7d' = false →
      Stops p (n.exponentText ++ rest) := fun he hcomma hbracket hbrace =>
    n.stops_exponentText he (hr.stops hcomma hbracket hbrace)
  have hdigit : Stops Char.isDigit (n.exponentText ++ rest) := hstops rfl rfl rfl rfl
  have hwhole : readDigits (n.whole ++ (n.fractionText ++ (n.exponentText ++ rest))) =
      (n.whole, n.fractionText ++ (n.exponentText ++ rest)) :=
    readDigits_append h.isDigit_whole (n.stops_fractionText rfl hdigit)
  have hfraction := readFraction_fractionText h.isDigit_fraction hdigit (hstops rfl rfl rfl rfl)
  have hstrict : ¬(n.whole = [] ∨ (n.whole.head? = some '0' ∧ n.whole ≠ ['0'])) :=
    not_or.2 ⟨h.whole_ne_nil, fun hzero => hzero.2 (h.zero_alone hzero.1)⟩
  have hprint : n.print ++ rest =
      (if n.negative then ['-'] else []) ++ (n.whole ++ (n.fractionText ++ (n.exponentText ++ rest))) := by
    simp only [print, List.append_assoc]
  rw [hprint]
  cases hn : n.negative with
  | true =>
    rw [if_pos rfl, List.singleton_append, readNumber]
    simp only [hwhole, if_neg hstrict, hfraction, n.readExponent_exponentText hr, Option.bind_eq_bind,
      Option.bind_some, ← hn]
    rfl
  | false =>
    rw [if_neg Bool.false_ne_true, List.nil_append, readNumber]
    · simp only [hwhole, if_neg hstrict, hfraction, n.readExponent_exponentText hr, Option.bind_eq_bind,
        Option.bind_some, ← hn]
      rfl
    · intro cs hminus
      obtain ⟨c, ds, hc, hd⟩ := h.exists_whole
      rw [hc] at hminus
      exact ne_of_class hd rfl (List.cons.inj hminus).1

end Number

/-- A document of which nothing is lost in print. -/
inductive Plain : Json → Prop
  | null : Plain .null
  | bool (b : Bool) : Plain (.bool b)
  | number {n : Number} (h : n.WellFormed) : Plain (.number n)
  | string (s : String) : Plain (.string s)
  | array {items : List Json} (each : ∀ j ∈ items, Plain j) : Plain (.array items)
  | object {members : List (String × Json)} (each : ∀ m ∈ members, Plain m.2) : Plain (.object members)

theorem Plain.ofInt (i : Int) : (Json.ofInt i).Plain := .number (Number.wellFormed_ofInt i)

variable {j : Json}

theorem Plain.exists_print (h : j.Plain) : ∃ c cs, j.print = c :: cs ∧ isBlank c = false ∧
    c ≠ ']' ∧ c ≠ '\x7d' := by
  cases h with
  | null => exact ⟨_, _, rfl, rfl, by decide⟩
  | bool b => cases b <;> exact ⟨_, _, rfl, rfl, by decide⟩
  | number h =>
    obtain ⟨c, cs, hc, hmark⟩ := h.exists_print
    refine ⟨c, cs, by rw [print, hc], ?_⟩
    rcases hmark with rfl | hd
    · exact ⟨rfl, by decide, by decide⟩
    · have hne : ∀ {m : Char}, m.isDigit = false → c ≠ m := fun hm => ne_of_class hd hm
      refine ⟨?_, hne rfl, hne rfl⟩
      simp [isBlank, hne (m := ' ') rfl, hne (m := '\n') rfl, hne (m := '\t') rfl, hne (m := '\r') rfl]
  | string s => exact ⟨_, _, by rw [print, printString], rfl, by decide⟩
  | @array items _ => cases items <;> exact ⟨_, _, by rw [print], rfl, by decide⟩
  | @object members _ => cases members <;> exact ⟨_, _, by rw [print], rfl, by decide⟩

theorem skipBlanks_cons {c : Char} (h : isBlank c = false) (cs : List Char) :
    skipBlanks (c :: cs) = c :: cs :=
  List.dropWhile_cons_of_neg (by simp [h])

theorem Plain.skipBlanks_print (h : j.Plain) (rest : List Char) :
    skipBlanks (j.print ++ rest) = j.print ++ rest := by
  obtain ⟨c, cs, hc, hb, -⟩ := h.exists_print
  rw [hc]
  exact skipBlanks_cons hb _

theorem endsValue_printItems (js : List Json) (rest : List Char) : EndsValue (printItems js ++ rest) := by
  cases js with
  | nil => exact endsValue_cons (Or.inr (Or.inl rfl)) _
  | cons j js => exact endsValue_cons (Or.inl rfl) _

theorem endsValue_printMembers (ms : List (String × Json)) (rest : List Char) :
    EndsValue (printMembers ms ++ rest) := by
  cases ms with
  | nil => exact endsValue_cons (Or.inr (Or.inr rfl)) _
  | cons m ms =>
    obtain ⟨name, j⟩ := m
    exact endsValue_cons (Or.inl rfl) _

def ReadsWithin (n : Nat) : Prop :=
  ∀ {j : Json} {rest : List Char}, j.Plain → EndsValue rest → j.print.length < n →
    readValue n (j.print ++ rest) = some (j, rest)

theorem Plain.length_pos (h : j.Plain) : 0 < j.print.length := by
  obtain ⟨c, cs, hc, -⟩ := h.exists_print
  rw [hc]
  exact Nat.succ_pos _

theorem readItems_printItems {js : List Json} (hread : ∀ m ≤ n, ReadsWithin m)
    (hplain : ∀ i ∈ j :: js, i.Plain) (hlen : (j.print ++ printItems js).length ≤ n)
    (rest : List Char) :
    readItems (n + 1) (j.print ++ (printItems js ++ rest)) = some (j :: js, rest) := by
  induction js generalizing n j with
  | nil =>
    have hj := hplain j List.mem_cons_self
    rw [List.length_append, printItems, List.length_singleton] at hlen
    rw [readItems, hread n (Nat.le_refl n) hj (endsValue_printItems [] rest) (by omega)]
    rfl
  | cons i js ih =>
    obtain ⟨hj, hjs⟩ := List.forall_mem_cons.1 hplain
    have hi := hjs i List.mem_cons_self
    have hpos := hj.length_pos
    rw [List.length_append, printItems, List.length_cons] at hlen
    obtain ⟨n, rfl⟩ := Nat.exists_eq_add_one_of_ne_zero (show n ≠ 0 by omega)
    have hrest := ih (n := n) (fun m hm => hread m (by omega)) hjs (by omega)
    rw [readItems, hread _ (Nat.le_refl _) hj (endsValue_printItems (i :: js) rest) (by omega),
      printItems, List.cons_append, List.append_assoc]
    simp only [Option.bind_eq_bind, Option.bind_some, skipBlanks_cons (show isBlank ',' = false from rfl),
      hi.skipBlanks_print, hrest]
    rfl

theorem expect_singleton (c : Char) (cs : List Char) : expect [c] (c :: cs) = some cs := by
  simp [expect]

theorem readMembers_printMembers {name : String} {ms : List (String × Json)}
    (hread : ∀ m ≤ n, ReadsWithin m) (hplain : ∀ m ∈ (name, j) :: ms, m.2.Plain)
    (hlen : (printString name ++ ':' :: (j.print ++ printMembers ms)).length ≤ n)
    (rest : List Char) :
    readMembers (n + 1) (printString name ++ ':' :: (j.print ++ (printMembers ms ++ rest))) =
      some (((name, j) :: ms).map fun m => (some m.1, m.2), rest) := by
  have hcolon : ∀ cs, skipBlanks (':' :: cs) = ':' :: cs := skipBlanks_cons rfl
  have hcomma : ∀ cs, skipBlanks (',' :: cs) = ',' :: cs := skipBlanks_cons rfl
  have hquote : ∀ (s : String) (cs : List Char), skipBlanks (printString s ++ cs) = printString s ++ cs :=
    fun s cs => skipBlanks_cons rfl _
  induction ms generalizing n name j with
  | nil =>
    have hj : j.Plain := hplain _ List.mem_cons_self
    rw [List.length_append, List.length_cons, List.length_append] at hlen
    have hvalue := hread n (Nat.le_refl n) hj (endsValue_printMembers [] rest) (by omega)
    rw [readMembers, printString_append, expect_singleton]
    simp only [Option.bind_eq_bind, Option.bind_some, readString_escaped, hcolon, expect_singleton,
      hj.skipBlanks_print, hvalue]
    rfl
  | cons m ms ih =>
    obtain ⟨next, i⟩ := m
    have hj : j.Plain := hplain _ List.mem_cons_self
    have hms := (List.forall_mem_cons.1 hplain).2
    rw [List.length_append, List.length_cons, List.length_append, printMembers, List.length_cons] at hlen
    obtain ⟨n, rfl⟩ := Nat.exists_eq_add_one_of_ne_zero (show n ≠ 0 by omega)
    have hvalue := hread (n + 1) (Nat.le_refl _) hj (endsValue_printMembers ((next, i) :: ms) rest)
      (by omega)
    have hrest := ih (n := n) (fun m hm => hread m (by omega)) hms (by omega)
    rw [readMembers, printString_append, expect_singleton]
    simp only [Option.bind_eq_bind, Option.bind_some, readString_escaped, hcolon, expect_singleton,
      hj.skipBlanks_print, hvalue]
    simp only [printMembers, List.cons_append, List.append_assoc, hcomma, hquote, hrest]
    rfl

theorem ofMembers_map_some (members : List (String × Json)) :
    ofMembers (members.map fun m => (some m.1, m.2)) = .object members := by
  have hnamed : (members.map fun m => (some m.1, m.2)).mapM (fun m => m.1.map (·, m.2)) =
      some (members.map id) := by
    rw [List.mapM_map]
    exact mapM_eq_some_map fun _ _ => rfl
  rw [ofMembers, hnamed, List.map_id]

theorem readValue_number {m : Number} (h : m.WellFormed) (n : Nat) (hrest : EndsValue rest) :
    readValue (n + 1) ((Json.number m).print ++ rest) = some (.number m, rest) := by
  obtain ⟨c, cs, hc, hmark⟩ := h.exists_print
  have hnumber := h.readNumber_print hrest
  have hne : ∀ m, m.isDigit = false → m ≠ '-' → c ≠ m := by
    rintro m hm hminus rfl
    rcases hmark with rfl | hd
    · exact hminus rfl
    · exact ne_of_class hd hm rfl
  rw [print]
  rw [hc, List.cons_append] at hnumber ⊢
  rw [readValue, hnumber]
  · rfl
  · exact nofun
  -- The other values start with characters that no number starts with.
  all_goals exact fun _ he => hne _ (by decide) (by decide) (List.cons.inj he).1

theorem readValue_array {items : List Json} (hread : ∀ m < n, ReadsWithin m) (each : ∀ i ∈ items, i.Plain)
    (hlen : (array items).print.length ≤ n) (rest : List Char) :
    readValue (n + 1) ((array items).print ++ rest) = some (array items, rest) := by
  cases items with
  | nil => rfl
  | cons i items =>
    have hi := each i List.mem_cons_self
    rw [print, List.length_cons] at hlen
    obtain ⟨n, rfl⟩ := Nat.exists_eq_add_one_of_ne_zero (show n ≠ 0 by omega)
    have hitems := readItems_printItems (n := n) (fun m hm => hread m (by omega)) each (by omega) rest
    obtain ⟨c, cs, hc, -, hne, -⟩ := hi.exists_print
    rw [print, List.cons_append, List.append_assoc, readValue, hi.skipBlanks_print]
    split
    · rename_i hbracket
      rw [hc] at hbracket
      exact absurd (List.cons.inj hbracket).1 hne
    · rw [hitems]
      rfl

theorem readValue_object {members : List (String × Json)} (hread : ∀ m < n, ReadsWithin m)
    (each : ∀ m ∈ members, m.2.Plain) (hlen : (object members).print.length ≤ n) (rest : List Char) :
    readValue (n + 1) ((object members).print ++ rest) = some (object members, rest) := by
  cases members with
  | nil => rfl
  | cons m members =>
    obtain ⟨name, i⟩ := m
    rw [print, List.length_cons] at hlen
    obtain ⟨n, rfl⟩ := Nat.exists_eq_add_one_of_ne_zero (show n ≠ 0 by omega)
    have hmembers := readMembers_printMembers (n := n) (fun m hm => hread m (by omega)) each (by omega) rest
    have hquote : ∀ cs, skipBlanks (printString name ++ cs) = printString name ++ cs :=
      fun cs => skipBlanks_cons rfl _
    rw [print, List.cons_append, List.append_assoc, readValue, hquote, List.cons_append,
      List.append_assoc]
    split
    · rename_i hbrace
      exact absurd (List.cons.inj hbrace).1 (by decide)
    · rw [hmembers]
      simp only [Option.bind_eq_bind, Option.bind_some, ofMembers_map_some]
      rfl

theorem readsWithin (n : Nat) : ReadsWithin n := by
  induction n using Nat.strongRecOn with
  | ind n ih =>
    intro j rest hj hrest hlen
    obtain ⟨n, rfl⟩ := Nat.exists_eq_add_one_of_ne_zero (Nat.ne_of_gt (Nat.zero_lt_of_lt hlen))
    have hread : ∀ m < n, ReadsWithin m := fun m hm => ih m (Nat.lt_succ_of_lt hm)
    cases hj with
    | null => rfl
    | bool b => cases b <;> rfl
    | number h => exact readValue_number h n hrest
    | string s =>
      rw [print, printString_append, readValue, readString_escaped]
      rfl
    | array each => exact readValue_array hread each (Nat.le_of_lt_succ hlen) rest
    | object each => exact readValue_object hread each (Nat.le_of_lt_succ hlen) rest

theorem read?_compact (h : j.Plain) : read? j.compact = some j := by
  have hread : readValue (j.print.length + 1) (j.print ++ []) = some (j, []) :=
    readsWithin _ h nofun (Nat.lt_succ_self _)
  have hblanks := h.skipBlanks_print []
  rw [List.append_nil] at hread hblanks
  rw [read?, compact, String.toList_ofList, hblanks, hread]
  rfl

end RemoteQuery.Json
