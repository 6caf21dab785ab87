import RemoteQuery.Proofs.Text.Percent
import RemoteQuery.QueryOptions

/-!
# Reading query options back

The text of the options is cut at every ampersand and each piece at its first equals sign. Names have
neither of the two and encoded values have neither, so the cuts are those that were joined. A piece without
text sets nothing.
-/

namespace RemoteQuery.QueryOptions

inductive Setting where
  | filter (value : String)
  | select (value : String)
  | orderBy (value : String)
  | top (count : UInt64)
  | skip (count : UInt64)
deriving DecidableEq

def count? (value : String) : Option UInt64 :=
  ((Digits.toNat? value.toList).filter (· < UInt64.size)).map UInt64.ofNat

namespace Setting

def name : Setting → String
  | .filter _ => "$filter"
  | .select _ => "$select"
  | .orderBy _ => "$orderby"
  | .top _ => "$top"
  | .skip _ => "$skip"

def value : Setting → String
  | .filter value | .select value | .orderBy value => value
  | .top count | .skip count => countText count

def ofPair? (name value : String) : Option Setting :=
  match name with
  | "$filter" => some (.filter value)
  | "$select" => some (.select value)
  | "$orderby" => some (.orderBy value)
  | "$top" => (count? value).map .top
  | "$skip" => (count? value).map .skip
  | _ => none

def read? (piece : List Char) : Option Setting :=
  match piece.dropWhile (· != '=') with
  | [] => none
  | _ :: value => (Percent.decode? value).bind (ofPair? (String.ofList (piece.takeWhile (· != '='))))

end Setting

/-- What is set, in the order of the text. -/
def settings (o : QueryOptions) : List Setting :=
  (o.filter.map .filter).toList ++ (o.select.map .select).toList ++
    (o.orderBy.map .orderBy).toList ++ (o.top.map .top).toList ++ (o.skip.map .skip).toList

def read? (text : String) : Option (List Setting) :=
  ((text.toList.splitOn '&').filter (· ≠ [])).mapM Setting.read?

def set (o : QueryOptions) : Setting → QueryOptions
  | .filter value => { o with filter := some value }
  | .select value => { o with select := some value }
  | .orderBy value => { o with orderBy := some value }
  | .top count => { o with top := some count }
  | .skip count => { o with skip := some count }

theorem foldl_set_settings (o : QueryOptions) : o.settings.foldl set empty = o := by
  obtain ⟨filter, select, orderBy, top, skip⟩ := o
  cases filter <;> cases select <;> cases orderBy <;> cases top <;> cases skip <;> rfl

theorem settings_injective {o o' : QueryOptions} (h : o.settings = o'.settings) : o = o' := by
  rw [← foldl_set_settings o, h, foldl_set_settings]

theorem count?_countText (n : UInt64) : count? (countText n) = some n := by
  have hn : n.toNat < UInt64.size := n.toNat_lt
  rw [count?, countText, String.toList_ofList, Digits.toNat?_ofNat, Option.filter_some,
    if_pos (by simpa using hn), Option.map_some, UInt64.ofNat_toNat]

theorem encodeOptionValue_countText (n : UInt64) : encodeOptionValue (countText n) = countText n := by
  rw [encodeOptionValue, countText, String.toList_ofList, Percent.encode_of_passes]
  intro c hc
  rw [Percent.passes, Char.isAlphanum, Digits.isDigit_of_mem_ofNat hc, Bool.or_true, Bool.true_or]

namespace Setting

variable (s : Setting)

def written : List Char := s.name.toList ++ '=' :: Percent.encode s.value.toList

theorem ofPair?_name_value : ofPair? s.name s.value = some s := by
  cases s with
  | filter value | select value | orderBy value => rfl
  | top count | skip count => simp [ofPair?, name, value, count?_countText]

theorem not_mem_name : '&' ∉ s.name.toList ∧ '=' ∉ s.name.toList := by
  cases s <;> simp [name]

theorem not_mem_written : '&' ∉ s.written := by
  have hencoded := (Percent.isClean_encode s.value.toList).separators.1
  simpa [written, s.not_mem_name.1] using hencoded

theorem written_ne_nil : s.written ≠ [] := by simp [written]

theorem read?_written : read? s.written = some s := by
  have hname : ∀ c ∈ s.name.toList, (c != '=') = true := by
    intro c hc
    simpa using fun he : c = '=' => s.not_mem_name.2 (he ▸ hc)
  have hstop : Stops (· != '=') ('=' :: Percent.encode s.value.toList) := stops_cons (by simp) _
  rw [read?, written, dropWhile_append_of_stops hname hstop, takeWhile_append_of_stops hname hstop]
  dsimp only
  rw [Percent.decode?_encode, Option.bind_some, String.ofList_toList, ofPair?_name_value]

end Setting

theorem pairs_eq_map_settings (o : QueryOptions) :
    o.pairs = o.settings.map fun s => (s.name, encodeOptionValue s.value) := by
  simp only [settings, List.map_append, ← Option.toList_map, Option.map_map]
  simp only [Function.comp_def, Setting.name, Setting.value, encodeOptionValue_countText]
  rfl

theorem toList_text (o : QueryOptions) :
    o.text.toList = ['&'].intercalate (o.settings.map Setting.written) := by
  rw [text, String.toList_intercalate, pairs_eq_map_settings, List.map_map, List.map_map]
  congr 1
  refine List.map_congr_left fun s _ => ?_
  simp [Setting.written, encodeOptionValue]

theorem read?_text (o : QueryOptions) : read? o.text = some o.settings := by
  have hpieces : (o.text.toList.splitOn '&').filter (· ≠ []) = o.settings.map Setting.written := by
    rw [toList_text]
    -- No options have the empty text, which splits into one empty piece.
    by_cases hset : o.settings = []
    · rw [hset]
      rfl
    · rw [List.splitOn_intercalate '&' (List.forall_mem_map.2 fun s _ => s.not_mem_written)
        (by simpa using hset)]
      refine List.filter_eq_self.2 (List.forall_mem_map.2 fun s _ => ?_)
      simpa using s.written_ne_nil
  rw [read?, hpieces, List.mapM_map, mapM_eq_some_map (g := id) fun s _ => s.read?_written, List.map_id]

/-- The text of the options reads back as what is set, in order and with the values that were given. So
options with one text are equal, and an option that is set to the empty text is not one that is not set. The
values in the text are clean. -/
theorem text_decodes (o : QueryOptions) :
    read? o.text = some o.settings ∧ o.settings.foldl set empty = o ∧
      (∀ o' : QueryOptions, o.text = o'.text → o = o') ∧
      (∀ p ∈ o.pairs, Percent.IsClean p.2.toList) ∧
      { o with filter := some "" }.text ≠ { o with filter := none }.text ∧
      { o with select := some "" }.text ≠ { o with select := none }.text ∧
      { o with orderBy := some "" }.text ≠ { o with orderBy := none }.text := by
  have hinj : ∀ {o o' : QueryOptions}, o.text = o'.text → o = o' := by
    intro o o' h
    have hread := o.read?_text
    rw [h, read?_text] at hread
    exact settings_injective (Option.some.inj hread).symm
  refine ⟨o.read?_text, foldl_set_settings o, fun o' => hinj, ?_, ?_, ?_, ?_⟩
  · intro p hp
    rw [pairs_eq_map_settings] at hp
    obtain ⟨s, -, rfl⟩ := List.mem_map.1 hp
    simpa [encodeOptionValue] using Percent.isClean_encode s.value.toList
  · intro h
    simpa using hinj h
  · intro h
    simpa using hinj h
  · intro h
    simpa using hinj h

def markedFilter : QueryOptions := ⟨some "a=b & %é", none, some "", some 5, none⟩

theorem text_decodes_markedFilter :
    read? markedFilter.text = some [.filter "a=b & %é", .orderBy "", .top 5] ∧
      ("$filter", "a%3Db+%26+%25%C3%A9") ∈ markedFilter.pairs ∧
      Percent.IsClean "a%3Db+%26+%25%C3%A9".toList :=
  have h := text_decodes markedFilter
  have hp : ("$filter", "a%3Db+%26+%25%C3%A9") ∈ markedFilter.pairs := by decide +kernel
  ⟨h.1, hp, h.2.2.2.1 _ hp⟩

end RemoteQuery.QueryOptions
