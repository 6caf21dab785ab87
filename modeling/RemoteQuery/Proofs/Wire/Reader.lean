import Mathlib.Data.List.Basic
import Mathlib.Order.Filter.AtTopBot.Basic
import RemoteQuery.Proofs.Wire.RootPath

/-!
# Reading texts back

A reader for the part of the wire language that is made of operations, paths from the root, simple
constants, lists, conditionals and memberships. A phrase is a stem and the sets that it is looked for
in, one after another; an operation is a phrase, or two with an operator between them. The reader takes
as much as it can and returns what it took as a term without types, with the rest of the text. How
deep it may go is bounded by a budget; a result that is found holds from some budget on.
-/

namespace RemoteQuery

def Term.membership (set value : Term) : Term :=
  .call none ⟨"", "Contains", [], .object⟩ [set, value]

def Term.named (t : Term) (name : String) : Term := .member (some t) ⟨"", name, .object⟩

namespace Reader

def isWordChar (c : Char) : Bool := isNameChar c || c == '.' || c == '-'

def word (cs : List Char) : List Char × List Char := (cs.takeWhile isWordChar, cs.dropWhile isWordChar)

def int? : List Char → Option Int64
  | '-' :: ds => (Digits.toNat? ds).map fun n : Nat => Int64.ofInt (-n)
  | ds => (Digits.toNat? ds).map fun n : Nat => Int64.ofInt n

def literal? (w : List Char) : Option Literal :=
  if w = "true".toList then some (.bool true)
  else if w = "false".toList then some (.bool false)
  else if w = "null".toList then some .null
  else (int? w).map .int

def path (root : String) (names : List String) : Term :=
  names.foldl Term.named (.param ⟨root, .object⟩)

def atom (root : String) (w : List Char) : Term :=
  match literal? w with
  | some value => .constant value .object
  | none => path root ((w.splitOn '.').map String.ofList)

def unquote : List Char → Option (List Char × List Char)
  | [] => none
  | '\'' :: '\'' :: cs => (unquote cs).map fun r => ('\'' :: r.1, r.2)
  | '\'' :: cs => some ([], cs)
  | c :: cs => (unquote cs).map fun r => (c :: r.1, r.2)

def operator? (cs : List Char) : Option (BinaryOp × List Char) :=
  (cs.dropPrefix? [' ']).bind fun cs =>
    ((word cs).2.dropPrefix? [' ']).bind fun rest =>
      (BinaryOp.all.find? fun op => op.token?.map String.toList == some (word cs).1).map (·, rest)

def conditional? : List Term → Option Term
  | [test, onTrue, onFalse] => some (.conditional test onTrue onFalse .object)
  | _ => none

mutual

def phrase (root : String) : Nat → List Char → Option (Term × List Char)
  | 0, _ => none
  | n + 1, cs => (stem root n cs).bind fun r => memberships root n r.1 r.2

def memberships (root : String) : Nat → Term → List Char → Option (Term × List Char)
  | 0, _, _ => none
  | n + 1, value, cs =>
    match cs.dropPrefix? " in ".toList with
    | none => some (value, cs)
    | some cs => (stem root n cs).bind fun r => memberships root n (.membership r.1 value) r.2

def stem (root : String) : Nat → List Char → Option (Term × List Char)
  | 0, _ => none
  | _ + 1, [] => none
  | n + 1, c :: cs =>
    if c = '(' then enclosed root n cs
    else if c = '[' then
      match items root n cs with
      | some r => (r.2.dropPrefix? [']']).map fun cs => (.array r.1 .object, cs)
      | none => (cs.dropPrefix? [']']).map fun cs => (.array [] .object, cs)
    else if c = '\'' then
      (unquote cs).map fun r => (.constant (.string (String.ofList r.1)) .object, r.2)
    else if (word (c :: cs)).1 = "not".toList then
      ((word (c :: cs)).2.dropPrefix? " (".toList).bind fun cs =>
        (enclosed root n cs).map fun r => (.unary .not r.1 .object, r.2)
    else if (word (c :: cs)).1 = "iif".toList then
      ((word (c :: cs)).2.dropPrefix? ['(']).bind fun cs => (items root n cs).bind fun r =>
        (conditional? r.1).bind fun t => (r.2.dropPrefix? [')']).map fun cs => (t, cs)
    else if isWordChar c then some (atom root (word (c :: cs)).1, (word (c :: cs)).2)
    else none

def enclosed (root : String) : Nat → List Char → Option (Term × List Char)
  | 0, _ => none
  | n + 1, cs => (operation root n cs).bind fun r =>
    (r.2.dropPrefix? [')']).map fun cs => (r.1, cs)

def operation (root : String) : Nat → List Char → Option (Term × List Char)
  | 0, _ => none
  | n + 1, cs => (phrase root n cs).bind fun l =>
    match operator? l.2 with
    | none => some l
    | some (op, cs) => (phrase root n cs).map fun r => (.binary op l.1 r.1 .object, r.2)

def items (root : String) : Nat → List Char → Option (List Term × List Char)
  | 0, _ => none
  | n + 1, cs => (phrase root n cs).bind fun t =>
    match t.2.dropPrefix? [','] with
    | none => some ([t.1], t.2)
    | some cs => (items root n cs).map fun r => (t.1 :: r.1, r.2)

end

variable {root : String} {cs rest w : List Char}

def Breaks (rest : List Char) : Prop := ∀ c ∈ rest.head?, isWordChar c = false ∧ c ≠ '\''

def Ends (rest : List Char) : Prop := Breaks rest ∧ rest.dropPrefix? " in ".toList = none

def Closes (rest : List Char) : Prop := ∀ c ∈ rest.head?, c = ')' ∨ c = ']'

theorem breaks_cons {c : Char} (h : isWordChar c = false) (hq : c ≠ '\'') (rest : List Char) :
    Breaks (c :: rest) := by
  intro b hb
  cases hb
  exact ⟨h, hq⟩

theorem closes_cons {c : Char} (h : c = ')' ∨ c = ']') (rest : List Char) :
    Closes (c :: rest) := by
  intro b hb
  cases hb
  exact h

theorem dropPrefix?_append (cs rest : List Char) : (cs ++ rest).dropPrefix? cs = some rest := by
  rw [List.dropPrefix?_eq_some_iff]
  exact ⟨cs, rfl, BEq.rfl⟩

theorem dropPrefix?_cons_self (c : Char) (rest : List Char) :
    (c :: rest).dropPrefix? [c] = some rest := dropPrefix?_append [c] rest

theorem dropPrefix?_cons_of_ne {c d : Char} (h : d ≠ c) (w rest : List Char) :
    (d :: rest).dropPrefix? (c :: w) = none := by
  simp [List.dropPrefix?, h]

theorem Ends.of_ne {c : Char} (h : isWordChar c = false) (hq : c ≠ '\'') (hs : c ≠ ' ')
    (rest : List Char) : Ends (c :: rest) :=
  ⟨breaks_cons h hq rest, dropPrefix?_cons_of_ne hs _ _⟩

theorem Closes.ends (h : Closes rest) : Ends rest := by
  cases rest with
  | nil => exact ⟨fun _ hc => (by cases hc), rfl⟩
  | cons c rest =>
    rcases h c rfl with rfl | rfl
    · exact .of_ne (by decide) (by decide) (by decide) rest
    · exact .of_ne (by decide) (by decide) (by decide) rest

theorem Closes.operator?_eq_none (h : Closes rest) : operator? rest = none := by
  cases rest with
  | nil => rfl
  | cons c rest =>
    have hc : c ≠ ' ' := by
      rcases h c rfl with rfl | rfl <;> decide
    rw [operator?, dropPrefix?_cons_of_ne hc]
    rfl

theorem word_append (hw : ∀ c ∈ w, isWordChar c = true) (h : Breaks rest) :
    word (w ++ rest) = (w, rest) := by
  have hrest : rest.takeWhile isWordChar = [] ∧ rest.dropWhile isWordChar = rest := by
    cases rest with
    | nil => exact ⟨rfl, rfl⟩
    | cons c rest =>
      have hc := (h c rfl).1
      simp [hc]
  rw [word, List.takeWhile_append_of_pos hw, List.dropWhile_append_of_pos hw, hrest.1, hrest.2,
    List.append_nil]

theorem unquote_body (s : List Char) (h : Breaks rest) :
    unquote (Quoted.body s ++ '\'' :: rest) = some (s, rest) := by
  induction s with
  | nil =>
    cases rest with
    | nil => rfl
    | cons c rest =>
      have hc := (h c rfl).2
      rw [Quoted.body_nil, List.nil_append, unquote]
      simpa using hc
  | cons c s ih =>
    by_cases hc : c = '\''
    · subst hc
      rw [Quoted.body_quote, List.cons_append, List.cons_append, unquote, ih]
      rfl
    · rw [Quoted.body_cons_of_ne hc, List.cons_append, unquote, ih]
      · rfl
      · exact fun _ h => absurd h hc
      · exact hc

theorem isWordChar_of_mem_token {op : BinaryOp} {token : String} (h : op.token? = some token) :
    ∀ c ∈ token.toList, isWordChar c = true := by
  have hall : token.toList.all isWordChar = true := by
    cases op <;> cases h <;> decide
  exact List.all_eq_true.1 hall

theorem operator?_token {op : BinaryOp} {token : String} (h : op.token? = some token)
    (rest : List Char) : operator? (' ' :: token.toList ++ ' ' :: rest) = some (op, rest) := by
  have hfind : (BinaryOp.all.find? fun o => o.token?.map String.toList == some token.toList) =
      some op := by
    cases op <;> cases h <;> decide
  have hbreaks : Breaks (' ' :: rest) := breaks_cons (by decide) (by decide) rest
  rw [operator?, List.cons_append, dropPrefix?_cons_self, Option.bind_some,
    word_append (isWordChar_of_mem_token h) hbreaks, dropPrefix?_cons_self, Option.bind_some, hfind]
  rfl

theorem ends_token {op : BinaryOp} {token : String} (h : op.token? = some token)
    (rest : List Char) : Ends (' ' :: token.toList ++ rest) := by
  refine ⟨breaks_cons (by decide) (by decide) _, ?_⟩
  cases op <;> cases h <;> rfl

theorem int?_ofInt (i : Int64) : int? (Digits.ofInt i.toInt) = some i := by
  have hback : ∀ j : Int, j = i.toInt → Int64.ofInt j = i := by
    rintro j rfl
    exact Int64.ofInt_toInt i
  rw [Digits.ofInt]
  split
  · have hj : -(i.toInt.natAbs : Int) = i.toInt := by omega
    simp only [int?, Digits.toNat?_ofNat, Option.map_some, hback _ hj]
  · have hj : (i.toInt.natAbs : Int) = i.toInt := by omega
    have hd : ∀ ds, Digits.ofNat i.toInt.natAbs ≠ '-' :: ds := by
      intro ds hds
      have := Digits.isDigit_of_mem_ofNat (c := '-') (hds ▸ List.mem_cons_self)
      exact absurd this (by decide)
    rw [int?]
    · simp only [Digits.toNat?_ofNat, Option.map_some, hback _ hj]
    · exact hd

open Filter

/-- From some budget on, the reader takes this text as this term, and nothing of what may follow. -/
def Takes (read : Nat → List Char → Option (Term × List Char)) (follows : List Char → Prop)
    (cs : List Char) (t : Term) : Prop :=
  ∀ᶠ n in atTop, ∀ rest, follows rest → read n (cs ++ rest) = some (t, rest)

/-- A phrase that begins with this text goes on after it as one that has the value `t` so far. -/
def Leads (root : String) (cs : List Char) (t : Term) : Prop :=
  ∃ k, ∀ᶠ n in atTop, ∀ rest, Breaks rest →
    phrase root (n + k) (cs ++ rest) = memberships root n t rest

theorem eventually_of_succ {P : Nat → Prop} (h : ∀ᶠ n in atTop, P (n + 1)) :
    ∀ᶠ n in atTop, P n := by
  rwa [← map_add_atTop_eq_nat 1, eventually_map]

variable {t u l r : Term} {ds : List Char}

theorem leads_of_stem (h : Takes (stem root) Breaks cs t) : Leads root cs t := by
  refine ⟨1, ?_⟩
  filter_upwards [h] with n hn rest hrest
  rw [phrase, hn rest hrest]
  rfl

theorem Leads.membership (hv : Leads root cs t) (hs : Takes (stem root) Breaks ds u) :
    Leads root (cs ++ " in ".toList ++ ds) (.membership u t) := by
  obtain ⟨k, hk⟩ := hv
  refine ⟨k + 1, ?_⟩
  have hk' := (tendsto_add_atTop_nat 1).eventually hk
  filter_upwards [hk', hs] with n hn hset rest hrest
  have hin : Breaks (" in ".toList ++ (ds ++ rest)) := breaks_cons (by decide) (by decide) _
  have hfirst := hn _ hin
  rw [memberships, dropPrefix?_append] at hfirst
  dsimp only at hfirst
  rw [hset rest hrest, Option.bind_some] at hfirst
  rw [← hfirst, List.append_assoc, List.append_assoc, Nat.add_right_comm, Nat.add_assoc]

theorem Leads.phrase (h : Leads root cs t) : Takes (phrase root) Ends cs t := by
  obtain ⟨k, hk⟩ := h
  rw [Takes, ← map_add_atTop_eq_nat (k + 1), eventually_map]
  have hk' := (tendsto_add_atTop_nat 1).eventually hk
  filter_upwards [hk'] with n hn rest hrest
  rw [Nat.add_comm k, ← Nat.add_assoc, hn rest hrest.1, memberships, hrest.2]

theorem takes_operation_of_phrase (h : Takes (phrase root) Ends cs t) :
    Takes (operation root) Closes cs t := by
  apply eventually_of_succ
  filter_upwards [h] with n hn rest hrest
  rw [operation, hn rest hrest.ends, Option.bind_some, hrest.operator?_eq_none]

theorem takes_operation_binary {op : BinaryOp} {token : String} (hop : op.token? = some token)
    (hl : Takes (phrase root) Ends cs l) (hr : Takes (phrase root) Ends ds r) :
    Takes (operation root) Closes (cs ++ (' ' :: token.toList ++ ' ' :: ds))
      (.binary op l r .object) := by
  apply eventually_of_succ
  filter_upwards [hl, hr] with n hn hm rest hrest
  have hends := ends_token hop (' ' :: (ds ++ rest))
  have htoken := operator?_token hop (ds ++ rest)
  have hfirst := hn _ hends
  have hassoc : cs ++ (' ' :: token.toList ++ ' ' :: ds) ++ rest =
      cs ++ (' ' :: token.toList ++ ' ' :: (ds ++ rest)) := by
    simp only [List.append_assoc, List.cons_append]
  rw [hassoc, operation, hfirst, Option.bind_some, htoken]
  dsimp only
  rw [hm rest hrest.ends]
  rfl

theorem takes_enclosed (h : Takes (operation root) Closes cs t) :
    Takes (enclosed root) Breaks (cs ++ [')']) t := by
  apply eventually_of_succ
  filter_upwards [h] with n hn rest _
  have hin := hn (')' :: rest) (closes_cons (Or.inl rfl) rest)
  rw [List.append_assoc, List.singleton_append, enclosed, hin, Option.bind_some,
    dropPrefix?_cons_self]
  rfl

theorem takes_stem_enclosed (h : Takes (operation root) Closes cs t) :
    Takes (stem root) Breaks ('(' :: cs ++ [')']) t := by
  apply eventually_of_succ
  filter_upwards [takes_enclosed h] with n hn rest hrest
  rw [List.cons_append, List.cons_append, stem, if_pos rfl, hn rest hrest]

theorem takes_stem_not (h : Takes (operation root) Closes cs t) :
    Takes (stem root) Breaks ("not (".toList ++ (cs ++ [')'])) (.unary .not t .object) := by
  apply eventually_of_succ
  filter_upwards [takes_enclosed h] with n hn rest hrest
  have hword : word ("not".toList ++ (" (".toList ++ (cs ++ [')'] ++ rest))) =
      ("not".toList, " (".toList ++ (cs ++ [')'] ++ rest)) :=
    word_append (List.all_eq_true.1 (by decide)) (breaks_cons (by decide) (by decide) _)
  have htext : "not (".toList ++ (cs ++ [')']) ++ rest =
      'n' :: ("ot".toList ++ (" (".toList ++ (cs ++ [')'] ++ rest))) := by
    simp
  have hword' : word ('n' :: ("ot".toList ++ (" (".toList ++ (cs ++ [')'] ++ rest)))) =
      ("not".toList, " (".toList ++ (cs ++ [')'] ++ rest)) := hword
  rw [htext, stem, if_neg (by decide), if_neg (by decide), if_neg (by decide), hword', if_pos rfl,
    dropPrefix?_append, Option.bind_some, hn rest hrest]
  rfl

theorem takes_items {css : List (List Char)} {ts : List Term} (hne : css ≠ [])
    (h : List.Forall₂ (fun cs t => Takes (phrase root) Ends cs t) css ts) :
    ∀ᶠ n in atTop, ∀ rest, Closes rest →
      items root n ([','].intercalate css ++ rest) = some (ts, rest) := by
  induction h with
  | nil => exact absurd rfl hne
  | @cons cs t css ts hc htail ih =>
    apply eventually_of_succ
    cases htail with
    | nil =>
      filter_upwards [hc] with n hn rest hrest
      have hcomma : rest.dropPrefix? [','] = none := by
        cases rest with
        | nil => rfl
        | cons c rest =>
          refine dropPrefix?_cons_of_ne ?_ _ _
          rcases hrest c rfl with rfl | rfl <;> decide
      rw [List.intercalate_singleton, items, hn rest hrest.ends, Option.bind_some, hcomma]
    | @cons ds u css ts hd htail =>
      filter_upwards [hc, ih (by simp)] with n hn hm rest hrest
      have hends : Ends (',' :: ([','].intercalate (ds :: css) ++ rest)) :=
        .of_ne (by decide) (by decide) (by decide) _
      have htext : [','].intercalate (cs :: ds :: css) ++ rest =
          cs ++ ',' :: ([','].intercalate (ds :: css) ++ rest) := by
        rw [List.intercalate_cons_cons]
        simp
      rw [htext, items, hn _ hends, Option.bind_some, dropPrefix?_cons_self]
      dsimp only
      rw [hm rest hrest]
      rfl

theorem items_eq_none (n : Nat) (rest : List Char) : items root n (']' :: rest) = none := by
  have hword : word (']' :: rest) = ([], ']' :: rest) :=
    word_append (w := []) (by simp) (breaks_cons (by decide) (by decide) rest)
  have hstem : ∀ m, stem root m (']' :: rest) = none := by
    intro m
    cases m with
    | zero => rw [stem]
    | succ m =>
      rw [stem, if_neg (by decide), if_neg (by decide), if_neg (by decide), hword,
        if_neg (show ([] : List Char) ≠ "not".toList by decide),
        if_neg (show ([] : List Char) ≠ "iif".toList by decide), if_neg (by decide)]
  have hphrase : ∀ m, phrase root m (']' :: rest) = none := by
    intro m
    cases m with
    | zero => rw [phrase]
    | succ m => rw [phrase, hstem, Option.bind_none]
  cases n with
  | zero => rw [items]
  | succ n => rw [items, hphrase, Option.bind_none]

theorem takes_stem_array {css : List (List Char)} {ts : List Term}
    (h : List.Forall₂ (fun cs t => Takes (phrase root) Ends cs t) css ts) :
    Takes (stem root) Breaks ('[' :: [','].intercalate css ++ [']']) (.array ts .object) := by
  apply eventually_of_succ
  by_cases hne : css = []
  · subst hne
    cases h
    refine Eventually.of_forall fun n rest _ => ?_
    rw [List.intercalate_nil, List.singleton_append, List.cons_append, stem, if_neg (by decide),
      if_pos rfl, List.singleton_append, items_eq_none, dropPrefix?_cons_self]
    rfl
  · filter_upwards [takes_items hne h] with n hn rest _
    have hin := hn (']' :: rest) (closes_cons (Or.inr rfl) rest)
    rw [List.cons_append, List.cons_append, stem, if_neg (by decide), if_pos rfl, List.append_assoc,
      List.singleton_append, hin]
    dsimp only
    rw [dropPrefix?_cons_self]
    rfl

theorem takes_stem_conditional {css : List (List Char)}
    (h : List.Forall₂ (fun cs t => Takes (phrase root) Ends cs t) css [t, l, r]) :
    Takes (stem root) Breaks ("iif(".toList ++ ([','].intercalate css ++ [')']))
      (.conditional t l r .object) := by
  have hne : css ≠ [] := by
    rintro rfl
    cases h
  apply eventually_of_succ
  filter_upwards [takes_items hne h] with n hn rest _
  have hin := hn (')' :: rest) (closes_cons (Or.inl rfl) rest)
  have hword : word ('i' :: ("if".toList ++ '(' :: ([','].intercalate css ++ ')' :: rest))) =
      ("iif".toList, '(' :: ([','].intercalate css ++ ')' :: rest)) :=
    word_append (w := "iif".toList) (List.all_eq_true.1 (by decide))
      (breaks_cons (by decide) (by decide) _)
  have htext : "iif(".toList ++ ([','].intercalate css ++ [')']) ++ rest =
      'i' :: ("if".toList ++ '(' :: ([','].intercalate css ++ ')' :: rest)) := by
    simp
  rw [htext, stem, if_neg (by decide), if_neg (by decide), if_neg (by decide), hword,
    if_neg (show "iif".toList ≠ "not".toList by decide), if_pos rfl, dropPrefix?_cons_self,
    Option.bind_some, hin, Option.bind_some]
  dsimp only [conditional?]
  rw [Option.bind_some, dropPrefix?_cons_self]
  rfl

theorem takes_stem_quoted (s : List Char) :
    Takes (stem root) Breaks (Quoted.chars s) (.constant (.string (String.ofList s)) .object) := by
  apply eventually_of_succ
  refine Eventually.of_forall fun n rest hrest => ?_
  rw [Quoted.chars, List.cons_append, List.append_assoc, List.singleton_append, stem,
    if_neg (by decide), if_neg (by decide), if_pos rfl, unquote_body s hrest]
  rfl

theorem takes_stem_word (hw : ∀ c ∈ w, isWordChar c = true) (hne : w ≠ [])
    (hnot : w ≠ "not".toList) (hiif : w ≠ "iif".toList) :
    Takes (stem root) Breaks w (atom root w) := by
  obtain ⟨c, cs, rfl⟩ := List.exists_cons_of_ne_nil hne
  have hc : isWordChar c = true := hw c List.mem_cons_self
  have hmark : ∀ {d : Char}, isWordChar d = false → c ≠ d := by
    rintro d hd rfl
    rw [hc] at hd
    cases hd
  apply eventually_of_succ
  refine Eventually.of_forall fun n rest hrest => ?_
  have hword := word_append hw hrest
  rw [List.cons_append] at hword
  rw [List.cons_append, stem, if_neg (hmark (by decide)), if_neg (hmark (by decide)),
    if_neg (hmark (by decide)), hword, if_neg hnot, if_neg hiif, if_pos hc]

def reservedWords : List String :=
  ["this", "true", "false", "null", "not", "in", "iif"] ++ BinaryOp.all.filterMap BinaryOp.token?

def IsReadable (name : String) : Prop := isIdentifier name = true ∧ name ∉ reservedWords

variable {names : List String}

theorem isWordChar_of_mem_dotted (h : ∀ n ∈ names, isIdentifier n = true) :
    ∀ c ∈ (dotted names).toList, isWordChar c = true := by
  have hname : ∀ n, isIdentifier n = true → ∀ c ∈ n.toList, isWordChar c = true := by
    intro n hn c hc
    obtain ⟨b, bs, hb, hstart, hrest⟩ := isIdentifier_iff.1 hn
    have hchar : isNameChar c = true := by
      rw [hb] at hc
      rcases List.mem_cons.1 hc with rfl | hc
      · exact isNameChar_of_isNameStart hstart
      · exact hrest c hc
    rw [isWordChar, hchar]
    rfl
  induction names with
  | nil => simp [dotted]
  | cons n names ih =>
    have hn := hname n (h n List.mem_cons_self)
    have hrest := ih fun m hm => h m (List.mem_cons_of_mem n hm)
    cases names with
    | nil => simpa [dotted] using hn
    | cons m names =>
      rw [dotted, String.intercalate_cons_cons]
      intro c hc
      rw [String.toList_append, String.toList_append, List.mem_append, List.mem_append] at hc
      rcases hc with (hc | hc) | hc
      · exact hn c hc
      · obtain rfl : c = '.' := by simpa using hc
        decide
      · exact hrest c hc

theorem dotted_ne_of_mem_reservedWords (hne : names ≠ []) (h : ∀ n ∈ names, IsReadable n)
    {w : String} (hw : w ∈ reservedWords) : (dotted names).toList ≠ w.toList := by
  have hpoint : ∀ w ∈ reservedWords, '.' ∉ w.toList := by decide
  intro he
  have hd : dotted names = dotted [w] := String.toList_inj.1 he
  have hns := dotted_injective hne (List.cons_ne_nil w [])
    (fun n hn => point_not_mem_of_isIdentifier (h n hn).1) (by simpa using hpoint w hw) hd
  exact (h w (by simp [hns])).2 hw

theorem exists_start_of_dotted (hne : names ≠ []) (h : ∀ n ∈ names, isIdentifier n = true) :
    ∃ c cs, (dotted names).toList = c :: cs ∧ isNameStart c = true := by
  obtain ⟨n, names, rfl⟩ := List.exists_cons_of_ne_nil hne
  obtain ⟨c, cs, hn, hc, -⟩ := isIdentifier_iff.1 (h n List.mem_cons_self)
  cases names with
  | nil => exact ⟨c, cs, by simpa [dotted] using hn, hc⟩
  | cons m names =>
    refine ⟨c, cs ++ ".".toList ++ (dotted (m :: names)).toList, ?_, hc⟩
    rw [dotted, String.intercalate_cons_cons, String.toList_append, String.toList_append, hn]
    rfl

theorem int?_eq_none {c : Char} (h : isNameStart c = true) (cs : List Char) :
    int? (c :: cs) = none := by
  have hc : c ≠ '-' ∧ c.isDigit = false := by
    have hall : ∀ n : Fin 128, isNameStart (Char.ofNat n) = true →
        Char.ofNat n ≠ '-' ∧ (Char.ofNat n).isDigit = false := by
      decide +kernel
    have hn := hall ⟨c.toNat, toNat_lt_of_isNameStart h⟩
    rw [Char.ofNat_toNat] at hn
    exact hn h
  have hnat : Digits.toNat? (c :: cs) = none := by
    simp [Digits.toNat?, hc.2]
  rw [int?, hnat]
  · rfl
  · rintro ds he
    exact hc.1 (List.cons.inj he).1

theorem atom_dotted (root : String) (hne : names ≠ []) (h : ∀ n ∈ names, IsReadable n) :
    atom root (dotted names).toList = path root names := by
  have hid : ∀ n ∈ names, isIdentifier n = true := fun n hn => (h n hn).1
  have hword : ∀ {w : String}, w ∈ reservedWords → (dotted names).toList ≠ w.toList :=
    dotted_ne_of_mem_reservedWords hne h
  obtain ⟨c, cs, hc, hstart⟩ := exists_start_of_dotted hne hid
  have hliteral : literal? (dotted names).toList = none := by
    rw [literal?, if_neg (hword (by decide)), if_neg (hword (by decide)), if_neg (hword (by decide)),
      hc, int?_eq_none hstart]
    rfl
  have hsplit : (dotted names).toList.splitOn '.' = names.map String.toList := by
    rw [dotted, String.toList_intercalate]
    exact List.splitOn_intercalate '.'
      (by simpa using fun n hn => point_not_mem_of_isIdentifier (hid n hn)) (by simpa using hne)
  rw [atom, hliteral]
  dsimp only
  rw [hsplit, List.map_map]
  congr 1
  exact (List.map_congr_left fun n _ => String.ofList_toList).trans (List.map_id names)

theorem takes_stem_dotted (hne : names ≠ []) (h : ∀ n ∈ names, IsReadable n) :
    Takes (stem root) Breaks (dotted names).toList (path root names) := by
  have hid : ∀ n ∈ names, isIdentifier n = true := fun n hn => (h n hn).1
  obtain ⟨c, cs, hc, -⟩ := exists_start_of_dotted hne hid
  rw [← atom_dotted root hne h]
  exact takes_stem_word (isWordChar_of_mem_dotted hid) (by simp [hc])
    (dotted_ne_of_mem_reservedWords hne h (by decide))
    (dotted_ne_of_mem_reservedWords hne h (by decide))

theorem takes_stem_literal {value : Literal} (hw : ∀ c ∈ w, isWordChar c = true)
    (h : literal? w = some value) : Takes (stem root) Breaks w (.constant value .object) := by
  have hne : ∀ v, literal? v = none → w ≠ v := by
    rintro v hv rfl
    rw [hv] at h
    cases h
  have hatom : atom root w = .constant value .object := by
    rw [atom, h]
  rw [← hatom]
  exact takes_stem_word hw (hne _ (by decide)) (hne _ (by decide)) (hne _ (by decide))

theorem literal?_ofInt (i : Int64) : literal? (Digits.ofInt i.toInt) = some (.int i) := by
  have hne : ∀ v, int? v = none → Digits.ofInt i.toInt ≠ v := by
    rintro v hv he
    rw [← he, int?_ofInt] at hv
    cases hv
  rw [literal?, if_neg (hne _ (by decide)), if_neg (hne _ (by decide)), if_neg (hne _ (by decide)),
    int?_ofInt]
  rfl

end Reader
end RemoteQuery
