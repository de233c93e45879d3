import Mathlib
import FilterLists.Config.Document
import FilterLists.Proofs.Toml.Reader

/-!
A written configuration is read back with all its settings and the persisted records of its
subscriptions.
-/
namespace FilterLists.Config.Document

open Toml (Value Members)
open Toml.Quoted (NoQuote)
open Toml.Scalar (EndsWord)
open Toml.Reader

section Values
variable {size : Nat}

theorem noQuote_newline (rest : List Char) : NoQuote ('\n' :: rest) := by
  simp [NoQuote]

theorem endsWord_newline (rest : List Char) : EndsWord ('\n' :: rest) :=
  Toml.Scalar.endsWord_of_head (by decide) (by decide) rest

theorem readsAs_text (s : String) : ReadsAs (size + 1) (textValue s) (.text s) where
  starts := by
    obtain ⟨tail, hhead | hhead⟩ := Toml.Quoted.head?_write s.toList
    · exact ⟨'"', tail, hhead, by decide⟩
    · exact ⟨'\'', tail, hhead, by decide⟩
  reads rest := value?_text (noQuote_newline rest) s

theorem readsAs_scalar {word : List Char} {v : Value}
    (hstart : ∃ c ∈ word.head?, Toml.Scalar.isWordChar c = true)
    (hread : ∀ rest, EndsWord rest → Toml.Scalar.read? (word ++ rest) = some (v, rest)) :
    ReadsAs (size + 1) word v := by
  obtain ⟨c, hc, hchar⟩ := hstart
  obtain ⟨tail, rfl⟩ : ∃ tail, word = c :: tail := List.head?_eq_some_iff.mp hc
  have hother : c ≠ '"' ∧ c ≠ '\'' ∧ c ≠ '[' ∧ c ≠ '\x7b' ∧ c ≠ ' ' ∧ c ≠ '\t' := by
    refine ⟨?_, ?_, ?_, ?_, ?_, ?_⟩ <;>
    · rintro rfl
      exact absurd hchar (by decide)
  obtain ⟨hdouble, hsingle, hbracket, hbrace, hspace, htab⟩ := hother
  refine ⟨⟨c, tail, rfl, by simp [Toml.Quoted.isSpace, hspace, htab]⟩, fun rest => ?_⟩
  rw [List.cons_append, value?_scalar ⟨hdouble, hsingle, hbracket, hbrace⟩]
  exact hread _ (endsWord_newline rest)

theorem readsAs_boolean (b : Bool) : ReadsAs (size + 1) (booleanValue b) (.boolean b) := by
  refine readsAs_scalar ?_ fun rest hrest => Toml.Scalar.read?_boolean hrest b
  cases b
  · exact ⟨'f', by simp [booleanValue], by decide⟩
  · exact ⟨'t', by simp [booleanValue], by decide⟩

theorem head?_of_digits {word : List Char} (hne : word ≠ [])
    (hchars : ∀ c ∈ word, c.isDigit = true ∨ c = '-') :
    ∃ c ∈ word.head?, Toml.Scalar.isWordChar c = true := by
  obtain ⟨c, tail, rfl⟩ := List.exists_cons_of_ne_nil hne
  refine ⟨c, rfl, ?_⟩
  rcases hchars c List.mem_cons_self with hdigit | rfl
  · simp [Toml.Scalar.isWordChar, Char.isAlphanum, hdigit]
  · decide

theorem readsAs_natural (n : Nat) : ReadsAs (size + 1) (naturalValue n) (.integer n) :=
  readsAs_scalar
    (head?_of_digits Nat.toDigits_ne_nil fun c hc => .inl (Toml.Scalar.isDigit_of_mem_toDigits c hc))
    fun _ hrest => Toml.Scalar.read?_natural hrest n

theorem readsAs_id (id : FilterId) : ReadsAs (size + 1) (idValue id) (.integer id.toInt) := by
  refine readsAs_scalar (head?_of_digits ?_ (Toml.Scalar.forall_mem_toString id.toInt))
    fun _ hrest => Toml.Scalar.read?_integer hrest id.toInt
  rcases Toml.Scalar.toList_toString id.toInt with ⟨m, -, h⟩ | ⟨m, -, h⟩ <;> rw [idValue, h]
  · exact Nat.toDigits_ne_nil
  · exact List.cons_ne_nil _ _

end Values

section Texts
variable {depth n : Nat} {rest : List Char}

/-- A blank before a text, which is not a comment, is passed over. -/
theorem skipFiller_text (s : String) :
    skipFiller false (textValue s ++ rest) = textValue s ++ rest := by
  obtain ⟨tail, hhead | hhead⟩ := Toml.Quoted.head?_write s.toList <;>
  · rw [textValue, hhead]
    exact skipFiller_of_head (by decide)

theorem head?_textValue (s : String) : (textValue s ++ rest).head? ≠ some ']' := by
  obtain ⟨tail, hhead | hhead⟩ := Toml.Quoted.head?_write s.toList <;> simp [textValue, hhead]

def itemLines (ss : List String) : List Char :=
  ss.flatMap (fun s => "    ".toList ++ textValue s ++ ",\n".toList)

theorem items?_itemLines (ss : List String) (h : ss.length < n) :
    items? depth n (skipFiller false (itemLines ss ++ ']' :: rest)) =
      some (ss.map .text, rest) := by
  induction ss generalizing n with
  | nil =>
    match n, h with
    | n + 1, _ =>
      have hbracket : skipFiller false (']' :: rest) = ']' :: rest := skipFiller_of_head (by decide)
      rw [itemLines, List.flatMap_nil, List.nil_append, hbracket]
      exact items?_end
  | cons s ss ih =>
    match n, h with
    | n + 2, h =>
      have hnext := ih (n := n + 1) (by simpa using h)
      have htext : itemLines (s :: ss) ++ ']' :: rest =
          ' ' :: ' ' :: ' ' :: ' ' ::
            (textValue s ++ ',' :: '\n' :: (itemLines ss ++ ']' :: rest)) := by
        simp [itemLines]
      have hskip : skipFiller false (itemLines (s :: ss) ++ ']' :: rest) =
          textValue s ++ ',' :: '\n' :: (itemLines ss ++ ']' :: rest) := by
        rw [htext]
        exact skipFiller_text s
      rw [hskip, items?_comma (head?_textValue s) (value?_text (by simp [NoQuote]) s)]
      have hline : skipFiller false ('\n' :: (itemLines ss ++ ']' :: rest)) =
          skipFiller false (itemLines ss ++ ']' :: rest) := rfl
      rw [hline, hnext]
      rfl

theorem readsAs_texts {size : Nat} (ss : List String) (h : ss.length + 1 < size) :
    ReadsAs size (textsValue ss) (.array (ss.map .text)) := by
  obtain ⟨n, rfl⟩ : ∃ n, size = n + 1 := ⟨size - 1, by omega⟩
  have hdepth : 0 < maxDepth := by decide
  have hitems : ∀ rest, ∃ body, textsValue ss ++ '\n' :: rest = '[' :: body ∧
      items? 1 n (skipFiller false body) = some (ss.map .text, '\n' :: rest) := by
    intro rest
    match ss, h with
    | [], h =>
      obtain ⟨m, rfl⟩ : ∃ m, n = m + 1 := ⟨n - 1, by simp at h; omega⟩
      refine ⟨']' :: '\n' :: rest, by simp [textsValue], ?_⟩
      rw [skipFiller_of_head (by decide)]
      exact items?_end
    | [s], h =>
      obtain ⟨m, rfl⟩ : ∃ m, n = m + 2 := ⟨n - 2, by simp at h; omega⟩
      refine ⟨textValue s ++ ']' :: '\n' :: rest, by simp [textsValue], ?_⟩
      rw [skipFiller_text]
      exact items?_bracket (head?_textValue s) (value?_text (by simp [NoQuote]) s)
    | s :: t :: ss, h =>
      refine ⟨'\n' :: (itemLines (s :: t :: ss) ++ ']' :: '\n' :: rest), by simp [textsValue, itemLines], ?_⟩
      exact items?_itemLines (s :: t :: ss) (by simpa using h)
  refine ⟨?_, fun rest => ?_⟩
  · match ss with
    | [] => exact ⟨'[', _, rfl, by decide⟩
    | [s] => exact ⟨'[', _, rfl, by decide⟩
    | s :: t :: ss => exact ⟨'[', _, rfl, by decide⟩
  · obtain ⟨body, htext, hread⟩ := hitems rest
    rw [htext, value?_array hdepth, hread]
    rfl

end Texts

section Records
variable {n : Nat}

theorem text_eq_line (p : WrittenPair n) : p.text = line p.key p.word := by
  simp [WrittenPair.text, line]

def loggingPairs (c : LoggingConfig) : List (WrittenPair (n + 1)) :=
  [⟨"level", _, _, by simp [IsBare, isBareKeyChar], readsAs_text c.level⟩,
    ⟨"json", _, _, by simp [IsBare, isBareKeyChar], readsAs_boolean c.json⟩]

def filterPairs (f : Filter) : List (WrittenPair (n + 1)) :=
  [⟨"id", _, _, by simp [IsBare, isBareKeyChar], readsAs_id f.id⟩,
    ⟨"url", _, _, by simp [IsBare, isBareKeyChar], readsAs_text f.url⟩,
    ⟨"name", _, _, by simp [IsBare, isBareKeyChar], readsAs_text f.name⟩,
    ⟨"enabled", _, _, by simp [IsBare, isBareKeyChar], readsAs_boolean f.enabled⟩]

def filteringPairs (c : FilteringConfig) (h : c.userRules.length < n) :
    List (WrittenPair (n + 1)) :=
  [⟨"enabled", _, _, by simp [IsBare, isBareKeyChar], readsAs_boolean c.enabled⟩,
    ⟨"data_dir", _, _, by simp [IsBare, isBareKeyChar], readsAs_text c.dataDir⟩,
    ⟨"filter_dir", _, _, by simp [IsBare, isBareKeyChar], readsAs_text c.filterDir⟩,
    ⟨"update_interval_hours", _, _, by simp [IsBare, isBareKeyChar], readsAs_natural c.updateIntervalHours.toNat⟩,
    ⟨"refresh_tick_secs", _, _, by simp [IsBare, isBareKeyChar], readsAs_natural c.refreshTickSecs.toNat⟩,
    ⟨"fetch_timeout_secs", _, _, by simp [IsBare, isBareKeyChar], readsAs_natural c.fetchTimeoutSecs.toNat⟩,
    ⟨"max_concurrent_fetches", _, _, by simp [IsBare, isBareKeyChar], readsAs_natural c.maxConcurrentFetches.toNat⟩,
    ⟨"user_agent", _, _, by simp [IsBare, isBareKeyChar], readsAs_text c.userAgent⟩,
    ⟨"user_rules", _, _, by simp [IsBare, isBareKeyChar], readsAs_texts c.userRules (by omega)⟩]

def loggingMembers (c : LoggingConfig) : Members :=
  [("level", .text c.level), ("json", .boolean c.json)]

def filterMembers (f : Filter) : Members :=
  [("id", .integer f.id.toInt), ("url", .text f.url), ("name", .text f.name),
    ("enabled", .boolean f.enabled)]

def filteringMembers (c : FilteringConfig) : Members :=
  [("enabled", .boolean c.enabled), ("data_dir", .text c.dataDir),
    ("filter_dir", .text c.filterDir),
    ("update_interval_hours", .integer c.updateIntervalHours.toNat),
    ("refresh_tick_secs", .integer c.refreshTickSecs.toNat),
    ("fetch_timeout_secs", .integer c.fetchTimeoutSecs.toNat),
    ("max_concurrent_fetches", .integer c.maxConcurrentFetches.toNat),
    ("user_agent", .text c.userAgent), ("user_rules", .array (c.userRules.map .text))]

theorem map_member_loggingPairs (c : LoggingConfig) :
    (loggingPairs (n := n) c).map (·.member) = loggingMembers c := rfl

theorem map_member_filterPairs (f : Filter) :
    (filterPairs (n := n) f).map (·.member) = filterMembers f := rfl

theorem map_member_filteringPairs (c : FilteringConfig) (h : c.userRules.length < n) :
    (filteringPairs c h).map (·.member) = filteringMembers c := rfl

/-- The value of the subscriptions: without any, an array. -/
def filtersValue : List Filter → Value
  | [] => .array []
  | fs => .tables (fs.map filterMembers)

/-- What a written configuration is read as, before its settings are taken from it. -/
def members (c : Config) : Members :=
  [("logging", .table .header (loggingMembers c.logging)),
    ("filtering", .table .header (filteringMembers c.filtering ++
      [("filters", filtersValue c.filtering.filters)]))]

end Records

section Reading
variable {n : Nat} (rest : List Char) {path : List String}

/-- A header and lines with different keys make a table. -/
theorem leadsTo_table {entries : Members} (key : String) (hkey : IsBare key.toList)
    (hnone : entries.lookup key = none) (pairs : List (WrittenPair n))
    (hdistinct : (pairs.map (·.member.1)).Nodup) :
    LeadsTo n
      ⟨path, entries, '[' :: (key.toList ++ ']' :: '\n' :: (pairs.flatMap (·.text) ++ rest))⟩
      ⟨[key], entries ++ [(key, .table .header (pairs.map (·.member)))], rest⟩ := by
  have hheader : LeadsTo n ⟨path, entries, _⟩ _ :=
    leadsTo_tableHeader (pairs.flatMap (·.text) ++ rest) hkey (by simpa using hnone)
  rw [String.ofList_toList] at hheader
  have hopen : IsOpen [key] (fun inner => entries ++ [(key, .table .header inner)]) :=
    isOpen_table hnone (by decide) isOpen_nil
  exact hheader.trans (leadsTo_pairs rest hopen pairs [] (by simp) hdistinct)

theorem loggingLines_eq (c : LoggingConfig) :
    loggingLines c = '[' :: ("logging".toList ++ ']' :: '\n' ::
      (loggingPairs (n := n) c).flatMap (·.text)) := by
  have hlines : loggingLines c =
      "[logging]\n".toList ++ line "level" (textValue c.level) ++ line "json" (booleanValue c.json) :=
    rfl
  rw [hlines]
  simp [loggingPairs, text_eq_line]

theorem leadsTo_logging (c : LoggingConfig) :
    LeadsTo (n + 1) ⟨[], [], loggingLines c ++ rest⟩
      ⟨["logging"], [("logging", .table .header (loggingMembers c))], rest⟩ := by
  have hdistinct : ((loggingPairs (n := n) c).map (·.member.1)).Nodup := by
    simp [loggingPairs, WrittenPair.member]
  have hlead : LeadsTo _ ⟨[], [], _⟩ _ := leadsTo_table rest "logging"
    (by simp [IsBare, isBareKeyChar]) rfl (loggingPairs (n := n) c) hdistinct
  rw [map_member_loggingPairs] at hlead
  rw [loggingLines_eq (n := n) c]
  simpa using hlead

theorem filteringLines_eq (c : FilteringConfig) (h : c.userRules.length < n) :
    filteringLines c = '\n' :: '[' :: ("filtering".toList ++ ']' :: '\n' ::
      ((filteringPairs c h).flatMap (·.text) ++ filtersLines c.filters)) := by
  have hlines : filteringLines c =
      "\n[filtering]\n".toList ++ line "enabled" (booleanValue c.enabled) ++
        line "data_dir" (textValue c.dataDir) ++ line "filter_dir" (textValue c.filterDir) ++
        line "update_interval_hours" (naturalValue c.updateIntervalHours.toNat) ++
        line "refresh_tick_secs" (naturalValue c.refreshTickSecs.toNat) ++
        line "fetch_timeout_secs" (naturalValue c.fetchTimeoutSecs.toNat) ++
        line "max_concurrent_fetches" (naturalValue c.maxConcurrentFetches.toNat) ++
        line "user_agent" (textValue c.userAgent) ++ line "user_rules" (textsValue c.userRules) ++
        filtersLines c.filters :=
    rfl
  rw [hlines]
  simp [filteringPairs, text_eq_line]

theorem leadsTo_filtering {entries : Members} (hnone : entries.lookup "filtering" = none)
    (c : FilteringConfig) (h : c.userRules.length < n) :
    LeadsTo (n + 1) ⟨path, entries, filteringLines c ++ rest⟩
      ⟨["filtering"], entries ++ [("filtering", .table .header (filteringMembers c))],
        filtersLines c.filters ++ rest⟩ := by
  have hdistinct : ((filteringPairs c h).map (·.member.1)).Nodup := by
    simp [filteringPairs, WrittenPair.member]
  have hlead : LeadsTo _ ⟨path, _, _⟩ _ := leadsTo_table (filtersLines c.filters ++ rest)
    "filtering" (by simp [IsBare, isBareKeyChar]) hnone (filteringPairs c h) hdistinct
  rw [map_member_filteringPairs] at hlead
  rw [filteringLines_eq c h]
  refine leadsTo_blank.trans ?_
  simpa using hlead

theorem filterLines_eq (f : Filter) :
    filterLines f = '\n' :: '[' :: '[' :: ("filtering".toList ++ '.' :: ("filters".toList ++
      ']' :: ']' :: '\n' :: (filterPairs (n := n) f).flatMap (·.text))) := by
  have hlines : filterLines f =
      "\n[[filtering.filters]]\n".toList ++ line "id" (idValue f.id) ++
        line "url" (textValue f.url) ++ line "name" (textValue f.name) ++
        line "enabled" (booleanValue f.enabled) :=
    rfl
  rw [hlines]
  simp [filterPairs, text_eq_line]

section Filters
variable {entries inner : Members} (hnone : entries.lookup "filtering" = none)
  (hinner : inner.lookup "filters" = none)
include hnone hinner

def withFilters (entries inner : Members) (done : List Members) : Members :=
  entries ++ [("filtering", .table .header (inner ++ [("filters", .tables done)]))]

/-- The lines of a subscription, after their header has opened a table for it. -/
theorem leadsTo_filter {opened : Members} {done : List Members} (f : Filter)
    (hopened : Toml.Table.descend (Toml.Table.openArray "filters") ["filtering"] opened =
      some (withFilters entries inner (done ++ [[]]))) :
    LeadsTo (n + 1) ⟨path, opened, filterLines f ++ rest⟩
      ⟨["filtering", "filters"], withFilters entries inner (done ++ [filterMembers f]), rest⟩ := by
  have hopen : IsOpen ["filtering", "filters"]
      (fun record => withFilters entries inner (done ++ [record])) :=
    isOpen_table hnone (by decide) (isOpen_tables hinner)
  have hdistinct : ((filterPairs (n := n) f).map (·.member.1)).Nodup := by
    simp [filterPairs, WrittenPair.member]
  have hheader : LeadsTo (n + 1) ⟨path, opened, _⟩
      ⟨_, withFilters entries inner (done ++ [[]]), _⟩ :=
    leadsTo_arrayHeader ((filterPairs (n := n) f).flatMap (·.text) ++ rest) "filtering".toList
      "filters".toList (by simp [IsBare, isBareKeyChar]) (by simp [IsBare, isBareKeyChar])
      (by simpa using hopened)
  have hpairs := leadsTo_pairs rest hopen (filterPairs (n := n) f) [] (by simp) hdistinct
  rw [List.nil_append, map_member_filterPairs] at hpairs
  rw [filterLines_eq (n := n) f]
  refine leadsTo_blank.trans ?_
  simpa using hheader.trans (by simpa using hpairs)

theorem leadsTo_moreFilters (fs : List Filter) (path : List String) (done : List Members) :
    ∃ last, LeadsTo (n + 1)
      ⟨path, withFilters entries inner done, fs.flatMap filterLines ++ rest⟩
      ⟨last, withFilters entries inner (done ++ fs.map filterMembers), rest⟩ := by
  induction fs generalizing path done with
  | nil => exact ⟨path, by simpa using LeadsTo.refl _⟩
  | cons f fs ih =>
    have hopened : Toml.Table.descend (Toml.Table.openArray "filters") ["filtering"]
        (withFilters entries inner done) = some (withFilters entries inner (done ++ [[]])) := by
      have hopen : IsOpen ["filtering"]
          (fun table => entries ++ [("filtering", .table .header table)]) :=
        isOpen_table hnone (by decide) isOpen_nil
      rw [withFilters, hopen, openArray_append hinner]
      rfl
    obtain ⟨last, hrest⟩ := ih ["filtering", "filters"] (done ++ [filterMembers f])
    refine ⟨last, ?_⟩
    rw [List.flatMap_cons, List.append_assoc, List.map_cons, List.append_cons]
    exact (leadsTo_filter _ hnone hinner f hopened).trans hrest

theorem leadsTo_filters (hn : 0 < n) (fs : List Filter) :
    ∃ last, LeadsTo (n + 1)
      ⟨["filtering"], entries ++ [("filtering", .table .header inner)], filtersLines fs ++ rest⟩
      ⟨last, entries ++ [("filtering", .table .header (inner ++ [("filters", filtersValue fs)]))],
        rest⟩ := by
  have hopen : IsOpen ["filtering"]
      (fun table => entries ++ [("filtering", .table .header table)]) :=
    isOpen_table hnone (by decide) isOpen_nil
  cases fs with
  | nil =>
    let pair : WrittenPair (n + 1) :=
      ⟨"filters", _, _, by simp [IsBare, isBareKeyChar], readsAs_texts [] (Nat.succ_lt_succ hn)⟩
    have hlead := leadsTo_pair rest hopen pair hinner
    rw [text_eq_line] at hlead
    exact ⟨_, hlead⟩
  | cons f fs =>
    have hopened : Toml.Table.descend (Toml.Table.openArray "filters") ["filtering"]
        (entries ++ [("filtering", .table .header inner)]) =
          some (withFilters entries inner ([] ++ [[]])) := by
      rw [hopen, openArray_of_none hinner]
      rfl
    obtain ⟨last, hrest⟩ := leadsTo_moreFilters (n := n) rest hnone hinner fs
      ["filtering", "filters"] [filterMembers f]
    have htext : filtersLines (f :: fs) ++ rest =
        filterLines f ++ (fs.flatMap filterLines ++ rest) := List.append_assoc _ _ _
    rw [htext]
    exact ⟨last, (leadsTo_filter _ hnone hinner f hopened).trans hrest⟩

end Filters

theorem length_le_textsValue (ss : List String) : ss.length ≤ (textsValue ss).length := by
  have hitems : ∀ ss, ss.length ≤ (itemLines ss).length := by
    intro ss
    induction ss with
    | nil => exact Nat.le_refl 0
    | cons s ss ih =>
      simp only [itemLines] at ih
      simp [itemLines]
      omega
  match ss with
  | [] => exact Nat.zero_le _
  | [s] => simp [textsValue]
  | s :: t :: ss =>
    have := hitems (s :: t :: ss)
    simp only [textsValue, List.length_append, itemLines] at this ⊢
    omega

theorem length_le_filteringLines (c : FilteringConfig) :
    c.userRules.length ≤ (filteringLines c).length := by
  have := length_le_textsValue c.userRules
  rw [filteringLines_eq c (Nat.lt_succ_self _)]
  simp only [filteringPairs, text_eq_line, List.flatMap_cons, List.length_append, List.length_cons,
    line]
  omega

theorem leadsTo_members (c : Config) (h : c.filtering.userRules.length < n) :
    ∃ last, LeadsTo (n + 1) ⟨[], [], loggingLines c.logging ++ filteringLines c.filtering⟩
      ⟨last, members c, []⟩ := by
  have hnone : List.lookup "filtering" [("logging", Value.table .header (loggingMembers c.logging))] =
      none := by
    simp [List.lookup]
  have hinner : (filteringMembers c.filtering).lookup "filters" = none := by
    simp [filteringMembers, List.lookup]
  obtain ⟨last, hfilters⟩ := leadsTo_filters (n := n) [] hnone hinner (by omega)
    c.filtering.filters
  have hlogging := leadsTo_logging (n := n) (filteringLines c.filtering) c.logging
  have hfiltering : LeadsTo (n + 1) ⟨["logging"], _, _⟩ _ :=
    leadsTo_filtering [] hnone c.filtering h
  rw [List.append_nil] at hfiltering
  exact ⟨last, hlogging.trans (hfiltering.trans hfilters)⟩

theorem toml_read?_write (c : Config) : Toml.read? (write c).toList = some (members c) := by
  have htext : (write c).toList = loggingLines c.logging ++ filteringLines c.filtering :=
    String.toList_ofList
  have hmark : Toml.withoutMark (loggingLines c.logging ++ filteringLines c.filtering) =
      loggingLines c.logging ++ filteringLines c.filtering := by
    rw [loggingLines_eq (n := 0)]
    rfl
  have hlength : c.filtering.userRules.length <
      2 * (loggingLines c.logging ++ filteringLines c.filtering).length + 1 := by
    have := length_le_filteringLines c.filtering
    rw [List.length_append]
    omega
  obtain ⟨last, hlead⟩ := leadsTo_members c hlength
  rw [htext, Toml.read?, hmark]
  exact read_of_leadsTo hlead

end Reading

section Settings

theorem id?_toInt (id : FilterId) : id? (.integer id.toInt) = some id := by
  rw [id?, if_pos ⟨id.minValue_le_toInt, id.toInt_le⟩, Int64.ofInt_toInt]

theorem word32?_toNat (n : UInt32) : word32? (.integer n.toNat) = some n := by
  have hlt : n.toNat < UInt32.size := n.toNat_lt
  simp [word32?, hlt]

theorem word64?_toNat (n : UInt64) : word64? (.integer n.toNat) = some n := by
  have hlt : n.toNat < UInt64.size := n.toNat_lt
  simp [word64?, hlt]

theorem filter?_filterMembers (f : Filter) :
    filter? (.table .header (filterMembers f)) = some f.persisted := by
  simp [filter?, members?, filterMembers, member?, List.lookup, id?_toInt, text?, boolean?,
    Filter.persisted]

theorem list?_filtersValue (fs : List Filter) :
    list? filter? (filtersValue fs) = some (fs.map Filter.persisted) := by
  have hmap : ∀ fs : List Filter, ((fs.map filterMembers).map (Value.table .header)).mapM filter? =
      some (fs.map Filter.persisted) := by
    intro fs
    induction fs with
    | nil => rfl
    | cons f fs ih =>
      simp only [List.map_cons, List.mapM_cons, filter?_filterMembers, ih]
      rfl
  cases fs with
  | nil => rfl
  | cons f fs => exact hmap (f :: fs)

theorem list?_texts (ss : List String) : list? text? (.array (ss.map .text)) = some ss := by
  show (ss.map Value.text).mapM text? = some ss
  induction ss with
  | nil => rfl
  | cons s ss ih =>
    simp only [List.map_cons, List.mapM_cons, ih]
    rfl

theorem logging?_loggingMembers (c : LoggingConfig) :
    logging? (.table .header (loggingMembers c)) = some c := by
  simp [logging?, members?, loggingMembers, member?, List.lookup, text?, boolean?]

theorem filtering?_filteringMembers (c : FilteringConfig) :
    filtering? (.table .header (filteringMembers c ++ [("filters", filtersValue c.filters)])) =
      some { c with filters := c.filters.map Filter.persisted } := by
  have hmembers : members? filteringNames
      (.table .header (filteringMembers c ++ [("filters", filtersValue c.filters)])) =
        some (filteringMembers c ++ [("filters", filtersValue c.filters)]) := by
    simp [members?, filteringNames, filteringMembers]
  unfold filtering?
  simp only [hmembers, Option.bind_eq_bind, Option.bind_some]
  simp only [member?, filteringMembers, List.cons_append, List.nil_append, List.lookup,
    String.reduceBEq, boolean?, text?, word32?_toNat, word64?_toNat, list?_texts,
    list?_filtersValue, Option.bind_some]

theorem config?_members (c : Config) : config? (members c) = some c.persisted := by
  simp [config?, members?, members, member?, List.lookup, logging?_loggingMembers,
    filtering?_filteringMembers, Config.persisted]

/-- A written configuration is read back as it was, apart from the contents of its filters. -/
theorem read?_write (c : Config) : read? (write c) = some c.persisted := by
  rw [read?, toml_read?_write, Option.bind_some, config?_members]

end Settings

section Contents

theorem forall_mem_mapM {α : Type} {read : Value → Option α} {P : α → Prop}
    (hread : ∀ v a, read v = some a → P a) {vs : List Value} {as : List α}
    (h : vs.mapM read = some as) : ∀ a ∈ as, P a := by
  induction vs generalizing as with
  | nil =>
    cases h
    simp
  | cons v vs ih =>
    rw [List.mapM_cons] at h
    obtain ⟨a, ha, h⟩ := Option.bind_eq_some_iff.mp h
    obtain ⟨rest, hrest, h⟩ := Option.bind_eq_some_iff.mp h
    cases h
    exact List.forall_mem_cons.mpr ⟨hread v a ha, ih hrest⟩

theorem persisted_of_filter? {v : Value} {f : Filter} (h : filter? v = some f) :
    f.persisted = f := by
  unfold filter? at h
  obtain ⟨entries, -, h⟩ := Option.bind_eq_some_iff.mp h
  obtain ⟨id, -, h⟩ := Option.bind_eq_some_iff.mp h
  obtain ⟨url, -, h⟩ := Option.bind_eq_some_iff.mp h
  obtain ⟨name, -, h⟩ := Option.bind_eq_some_iff.mp h
  obtain ⟨enabled, -, h⟩ := Option.bind_eq_some_iff.mp h
  cases h
  rfl

theorem persisted_of_filters? {v : Value} {fs : List Filter} (h : list? filter? v = some fs) :
    ∀ f ∈ fs, f.persisted = f := by
  cases v with
  | array items => exact forall_mem_mapM (fun _ _ => persisted_of_filter?) h
  | tables items => exact forall_mem_mapM (fun _ _ => persisted_of_filter?) h
  | _ => cases h

theorem persisted_of_filtering? {v : Value} {c : FilteringConfig} (h : filtering? v = some c) :
    ∀ f ∈ c.filters, f.persisted = f := by
  unfold filtering? at h
  obtain ⟨entries, -, h⟩ := Option.bind_eq_some_iff.mp h
  iterate 9 obtain ⟨_, -, h⟩ := Option.bind_eq_some_iff.mp h
  obtain ⟨filters, hfilters, h⟩ := Option.bind_eq_some_iff.mp h
  cases h
  unfold member? at hfilters
  split at hfilters
  · exact persisted_of_filters? hfilters
  · cases hfilters
    simp

theorem persisted_of_read? {text : String} {c : Config} (h : read? text = some c) :
    c.persisted = c := by
  obtain ⟨entries, -, h⟩ := Option.bind_eq_some_iff.mp h
  unfold config? at h
  obtain ⟨members, -, h⟩ := Option.bind_eq_some_iff.mp h
  obtain ⟨logging, -, h⟩ := Option.bind_eq_some_iff.mp h
  obtain ⟨filtering, hfiltering, h⟩ := Option.bind_eq_some_iff.mp h
  cases h
  have hbare : ∀ f ∈ filtering.filters, f.persisted = f := by
    unfold member? at hfiltering
    split at hfiltering
    · exact persisted_of_filtering? hfiltering
    · cases hfiltering
      simp
  simp only [persisted, List.map_congr_left hbare, List.map_id']

end Contents

end FilterLists.Config.Document
