import Mathlib.Algebra.Group.Int.Defs
import RemoteQuery.Json.Printer
import RemoteQuery.Json.Record
import RemoteQuery.Proofs.Text.Numerals

/-!
# Reading what was written as a record

A record with its fields in order is read field by field, if no name stands twice. What is below an object or
an array is less deep than it, which is all that the readers of nested documents ask for.
-/

namespace RemoteQuery.Json

theorem depth_lt_of_mem_array {j : Json} {items : List Json} (h : j ∈ items) :
    j.depth < (array items).depth := by
  rw [depth]
  exact Nat.lt_succ_of_le (depth_le_of_mem_items h)

theorem depth_lt_of_mem_object {name : String} {j : Json} {members : List (String × Json)}
    (h : (name, j) ∈ members) : j.depth < (object members).depth := by
  rw [depth]
  exact Nat.lt_succ_of_le (depth_le_of_mem_members h)

theorem depth_lt_tagged (tag : String) (body : Json) : body.depth < (tagged tag body).depth :=
  depth_lt_of_mem_object List.mem_cons_self

theorem depth_lt_of_tagged {n : Nat} {tag : String} {body : Json} (h : (tagged tag body).depth < n + 1) :
    body.depth < n :=
  Nat.lt_of_lt_of_le (depth_lt_tagged tag body) (Nat.le_of_lt_succ h)

theorem depth_lt_tagged_object {tag name : String} {j : Json} {members : List (String × Json)}
    (h : (name, j) ∈ members) : j.depth < (tagged tag (object members)).depth :=
  Nat.lt_trans (depth_lt_of_mem_object h) (depth_lt_tagged tag _)

theorem bareTag?_tagged_ne {tag other : String} (h : tag ≠ other) (body : Json) :
    (tagged tag body).bareTag? ≠ some other := by
  cases body <;> simp [tagged, bareTag?, h]

theorem wholeValue_ofInt (i : Int) : (Number.ofInt i).wholeValue = i.natAbs :=
  Nat.ofDigitChars_ten_toDigits

theorem integer?_ofInt {i : Int} (hl : -(2 ^ 63) ≤ i) (hu : i < 2 ^ 63) : (ofInt i).integer? = some i := by
  have hsize : UInt64.size = 18446744073709551616 := rfl
  have hplain : ¬((Number.ofInt i).fraction ≠ [] ∨ (Number.ofInt i).exponent ≠ none) := by
    simp [Number.ofInt]
  have hsign : (Number.ofInt i).negative = decide (i < 0) := rfl
  rw [integer?, ofInt, number?, Option.bind_some, Number.integer?, if_neg hplain, hsign, wholeValue_ofInt,
    hsize]
  by_cases hi : i < 0
  · rw [decide_eq_true hi, if_pos rfl, if_pos (by omega)]
    congr 1
    omega
  · rw [decide_eq_false hi, if_neg Bool.false_ne_true, if_pos (by omega)]
    congr 1
    omega

theorem int64?_ofInt (i : Int64) : (ofInt i.toInt).int64? = some i := by
  rw [int64?, integer?_ofInt i.le_toInt i.toInt_lt, Option.filter_some,
    if_pos (by simp), Option.map_some, Int64.ofInt_toInt]

theorem int32?_ofInt (i : Int32) : (ofInt i.toInt).int32? = some i := by
  have hl := i.le_toInt
  have hu := i.toInt_lt
  rw [int32?, integer?_ofInt (by omega) (by omega), Option.filter_some, if_pos (by simp),
    Option.map_some, Int32.ofInt_toInt]

theorem char?_singleton (c : Char) : (string (String.singleton c)).char? = some c := by
  simp [char?, string?]

theorem listOf?_array {α β : Type} {read : Json → Option β} {write : α → Json} {f : α → β} {l : List α}
    (h : ∀ a ∈ l, read (write a) = some (f a)) :
    (array (l.map write)).listOf? read = some (l.map f) := by
  rw [listOf?, list?, Option.bind_some, List.mapM_map]
  exact mapM_eq_some_map h

theorem orNull?_of_ne_null {α : Type} (read : Json → Option α) {j : Json} (h : j ≠ null) :
    orNull? read j = (read j).map some := by
  rw [orNull?]
  exact h

theorem orNull?_ofOption {α β : Type} {read : Json → Option β} {write : α → Json} {f : α → β}
    {o : Option α} (h : ∀ a ∈ o, write a ≠ null ∧ read (write a) = some (f a)) :
    (ofOption (o.map write)).orNull? read = some (o.map f) := by
  cases o with
  | none => rfl
  | some a =>
    obtain ⟨hne, hread⟩ := h a rfl
    rw [Option.map_some, ofOption, Option.getD_some, orNull?_of_ne_null read hne, hread]
    rfl

theorem record?_object {fields : List Field} {members : List (String × Json)}
    (hnames : members.map Prod.fst = fields.map Field.name) (hnodup : (fields.map Field.name).Nodup) :
    record? fields (object members) = some (members.map Prod.snd) := by
  -- A field looks for its name among all members, those before it included.
  suffices h : ∀ before : List (String × Json), (∀ f ∈ fields, ∀ m ∈ before, m.1 ≠ f.name) →
      fields.mapM (·.ofMembers? (before ++ members)) = some (members.map Prod.snd) by
    exact h [] (by simp)
  induction fields generalizing members with
  | nil =>
    intro before _
    rw [List.map_eq_nil_iff.1 hnames]
    rfl
  | cons f fields ih =>
    intro before hbefore
    obtain ⟨m, members, rfl⟩ := List.exists_cons_of_ne_nil (l := members) (by rintro rfl; cases hnames)
    obtain ⟨hname, hnames⟩ := List.cons.inj hnames
    obtain ⟨hfresh, hnodup⟩ := List.nodup_cons.1 hnodup
    have hfirst : (before ++ m :: members).filter (·.1 == f.name) = [m] := by
      have hfront : before.filter (·.1 == f.name) = [] := by
        simpa using hbefore f List.mem_cons_self
      have hback : members.filter (·.1 == f.name) = [] := by
        rw [List.filter_eq_nil_iff]
        intro k hk he
        exact hfresh (beq_iff_eq.1 he ▸ hnames ▸ List.mem_map_of_mem hk)
      rw [List.filter_append, hfront, List.filter_cons_of_pos (by simp [hname]), hback, List.nil_append]
    have hrest := ih hnames hnodup (before ++ [m]) (by
      intro g hg k hk
      rcases List.mem_append.1 hk with hk | hk
      · exact hbefore g (List.mem_cons_of_mem f hg) k hk
      · rw [List.mem_singleton.1 hk, hname]
        exact fun he => hfresh (he ▸ List.mem_map_of_mem hg))
    rw [List.append_assoc] at hrest
    rw [List.mapM_cons, Field.ofMembers?, hfirst]
    simp only [Option.bind_eq_bind, Option.bind_some]
    exact congrArg (Option.bind · _) hrest

theorem record?_object_cons {fields : List Field} {name : String} {j : Json} {members : List (String × Json)}
    (habsent : ∀ f ∈ fields, f.name = name → f.absent = some j) (hname : name ∉ members.map Prod.fst) :
    record? fields (object ((name, j) :: members)) = record? fields (object members) := by
  have hfield : ∀ f ∈ fields, f.ofMembers? ((name, j) :: members) = f.ofMembers? members := by
    intro f hf
    by_cases hn : f.name = name
    · have hnone : members.filter (·.1 == f.name) = [] := by
        rw [List.filter_eq_nil_iff]
        exact fun m hm he => hname (hn ▸ beq_iff_eq.1 he ▸ List.mem_map_of_mem hm)
      rw [Field.ofMembers?, Field.ofMembers?, List.filter_cons_of_pos (by simp [hn]), hnone]
      exact (habsent f hf hn).symm
    · rw [Field.ofMembers?, Field.ofMembers?, List.filter_cons_of_neg (by simpa using Ne.symm hn)]
  rw [record?, record?]
  clear habsent
  induction fields with
  | nil => rfl
  | cons f fields ih =>
    obtain ⟨hfirst, hrest⟩ := List.forall_mem_cons.1 hfield
    rw [List.mapM_cons, List.mapM_cons, hfirst, ih hrest]

end RemoteQuery.Json
